import Mathlib.Data.List.Sort
import RhythmChart.Scalar

/-!
# Sorting by a total order

`SortedFrom key xs ys` says that `ys` are the elements of `xs` in the total order of their keys, and that
elements whose keys are tied keep their order.  A merge sort by the total order arranges a list so
(`sortedFrom_mergeSort`), provided that the total order is one (`LawfulOrder`).  There is only one such
arrangement (`SortedFrom.unique`), so an insertion sort, which unlike a merge sort is structurally
recursive, gives the same list (`mergeSort_eq_insertionSort`).

The total order of binary64 numbers is that of `Binary64.Precedes`, which compares their bits.
-/

open scoped List

namespace RhythmChart

namespace Scalar

/-- The total order is transitive, and it leaves no two numbers unordered. -/
class LawfulOrder (α : Type) [Scalar α] : Prop where
  trans : ∀ x y z : α, totalLE x y = true → totalLE y z = true → totalLE x z = true
  total : ∀ x y : α, (totalLE x y || totalLE y x) = true

instance : LawfulOrder Float where
  trans _ _ _ hxy hyz := decide_eq_true (Int.le_trans (of_decide_eq_true hxy) (of_decide_eq_true hyz))
  total x y := by simpa [totalLE] using Int.le_total (Binary64.rank x) (Binary64.rank y)

instance : LawfulOrder Rat where
  trans _ _ _ hxy hyz := decide_eq_true (Rat.le_trans (of_decide_eq_true hxy) (of_decide_eq_true hyz))
  total x y := by simpa [totalLE] using (Rat.le_total : x ≤ y ∨ y ≤ x)

variable {α : Type} [Scalar α]

/-- The two numbers have one place in the total order. -/
def tied (x y : α) : Bool := totalLE x y && totalLE y x

theorem LawfulOrder.refl [LawfulOrder α] (x : α) : totalLE x x = true := by
  simpa using LawfulOrder.total x x

end Scalar

/-! ## The order of binary64 numbers -/

namespace Binary64

/-- The number comes before another one.  A negative number, whose sign is its highest bit, comes before those of
lower bits; any other one comes before those of higher bits that have no sign. -/
def Precedes (x y : Float) : Prop :=
  if 1 <<< 63 ≤ x.toBits.toNat then y.toBits.toNat < x.toBits.toNat
  else x.toBits.toNat < y.toBits.toNat ∧ y.toBits.toNat < 1 <<< 63

variable {x y : Float}

theorem rank_lt_rank_iff : rank x < rank y ↔ Precedes x y := by
  unfold rank Precedes
  dsimp only
  split <;> split <;> split <;> omega

theorem rank_eq_rank_iff : rank x = rank y ↔ x.toBits = y.toBits := by
  rw [← UInt64.toNat_inj]
  unfold rank
  dsimp only
  split <;> split <;> omega

theorem totalLE_iff : Scalar.totalLE x y = true ↔ ¬ Precedes y x := by
  rw [← rank_lt_rank_iff, Int.not_lt]
  exact decide_eq_true_iff

theorem tied_eq (x y : Float) : Scalar.tied x y = decide (x.toBits = y.toBits) := by
  rw [Bool.eq_iff_iff, decide_eq_true_iff, ← rank_eq_rank_iff, Scalar.tied, Bool.and_eq_true]
  exact (and_congr decide_eq_true_iff decide_eq_true_iff).trans Int.le_antisymm_iff.symm

end Binary64

open Scalar

variable {α β : Type} [Scalar α]

/-- `ys` are the elements of `xs` in the order of their keys; those with tied keys keep their order. -/
structure SortedFrom (key : β → α) (xs ys : List β) : Prop where
  perm : ys ~ xs
  ordered : ys.Pairwise fun a b => totalLE (key a) (key b) = true
  stable : ∀ x, ys.filter (fun a => tied x (key a)) = xs.filter fun a => tied x (key a)

variable [LawfulOrder α]

/-- A sort that keeps the order of what is sorted already is stable. -/
theorem SortedFrom.of_sublists {key : β → α} {xs ys : List β} (perm : ys ~ xs)
    (ordered : ys.Pairwise fun a b => totalLE (key a) (key b) = true)
    (keeps : ∀ zs : List β, zs.Pairwise (fun a b => totalLE (key a) (key b) = true) →
      zs <+ xs → zs <+ ys) : SortedFrom key xs ys := by
  refine ⟨perm, ordered, fun x => ?_⟩
  -- The elements tied with `x` are sorted as they stand, so the sort leaves them in their order.
  have htied : (xs.filter fun a => tied x (key a)).Pairwise
      fun a b => totalLE (key a) (key b) = true := by
    refine List.pairwise_of_forall_mem_list fun a ha b hb => ?_
    have hax := (Bool.and_eq_true_iff.1 (List.mem_filter.1 ha).2).2
    have hxb := (Bool.and_eq_true_iff.1 (List.mem_filter.1 hb).2).1
    exact LawfulOrder.trans _ _ _ hax hxb
  have hsub := (keeps _ htied List.filter_sublist).filter fun a => tied x (key a)
  rw [List.filter_filter] at hsub
  simp only [Bool.and_self] at hsub
  exact (hsub.eq_of_length (perm.filter _).length_eq.symm).symm

theorem sortedFrom_mergeSort (key : β → α) (xs : List β) :
    SortedFrom key xs (xs.mergeSort fun a b => totalLE (key a) (key b)) := by
  have htrans (a b c : β) := LawfulOrder.trans (key a) (key b) (key c)
  have htotal (a b : β) := LawfulOrder.total (key a) (key b)
  exact .of_sublists (List.mergeSort_perm _ _) (List.pairwise_mergeSort htrans htotal xs)
    fun zs => List.sublist_mergeSort htrans htotal

theorem sortedFrom_insertionSort (key : β → α) (xs : List β) :
    SortedFrom key xs (xs.insertionSort fun a b => totalLE (key a) (key b) = true) := by
  have : Std.Total fun a b : β => totalLE (key a) (key b) = true :=
    ⟨fun a b => by simpa using LawfulOrder.total (key a) (key b)⟩
  have : IsTrans β fun a b => totalLE (key a) (key b) = true :=
    ⟨fun a b c => LawfulOrder.trans (key a) (key b) (key c)⟩
  exact .of_sublists (List.perm_insertionSort _ xs) (List.pairwise_insertionSort _ xs)
    fun zs => List.sublist_insertionSort

/-- The total order and the order of tied elements leave one arrangement. -/
theorem SortedFrom.unique {key : β → α} {xs ys zs : List β} (h : SortedFrom key xs ys)
    (h' : SortedFrom key xs zs) : ys = zs := by
  have htied (x : α) : ys.filter (fun a => tied x (key a)) = zs.filter fun a => tied x (key a) :=
    (h.stable x).trans (h'.stable x).symm
  have hself (a : β) : tied (key a) (key a) = true := by simp [tied, LawfulOrder.refl]
  have hys := h.ordered
  have hzs := h'.ordered
  have hperm := h.perm.trans h'.perm.symm
  clear h h'
  induction ys generalizing zs with
  | nil => exact hperm.nil_eq
  | cons y ys ih =>
    cases zs with
    | nil => exact absurd hperm.length_eq (by simp)
    | cons z zs =>
      -- Each of the two heads is in the other list, so they are tied, and so the first of those tied.
      have hle {a b : β} {as bs : List β} (hperm : a :: as ~ b :: bs)
          (hbs : (b :: bs).Pairwise fun a b => totalLE (key a) (key b) = true) :
          totalLE (key b) (key a) = true := by
        rcases List.mem_cons.1 (hperm.mem_iff.1 List.mem_cons_self) with rfl | hmem
        · exact LawfulOrder.refl _
        · exact (List.pairwise_cons.1 hbs).1 _ hmem
      have hyz : tied (key y) (key z) = true := by simp [tied, hle hperm hzs, hle hperm.symm hys]
      have hheads := htied (key y)
      rw [List.filter_cons, List.filter_cons, if_pos (hself y), if_pos hyz] at hheads
      obtain rfl : y = z := (List.cons.inj hheads).1
      have htails (x : α) : ys.filter (fun a => tied x (key a)) = zs.filter fun a => tied x (key a) := by
        have hx := htied x
        rw [List.filter_cons, List.filter_cons] at hx
        split at hx
        · exact (List.cons.inj hx).2
        · exact hx
      rw [ih htails (List.pairwise_cons.1 hys).2 (List.pairwise_cons.1 hzs).2 hperm.cons_inv]

theorem mergeSort_eq_insertionSort (key : β → α) (xs : List β) :
    (xs.mergeSort fun a b => totalLE (key a) (key b)) =
      xs.insertionSort fun a b => totalLE (key a) (key b) = true :=
  (sortedFrom_mergeSort key xs).unique (sortedFrom_insertionSort key xs)

/-- Elements sorted from a list with some order are in that order where their keys are tied. -/
theorem SortedFrom.pairwise {key : β → α} {xs ys : List β} (h : SortedFrom key xs ys)
    {R : β → β → Prop} (hxs : xs.Pairwise R) :
    ys.Pairwise fun a b => totalLE (key a) (key b) = true ∧ (totalLE (key b) (key a) = true → R a b) := by
  refine List.pairwise_iff_forall_sublist.2 fun {a b} hab => ?_
  have hle := List.pairwise_iff_forall_sublist.1 h.ordered hab
  refine ⟨hle, fun hge => ?_⟩
  have ha : tied (key a) (key a) = true := by
    rw [tied, LawfulOrder.refl]
    rfl
  have hb : tied (key a) (key b) = true := by
    rw [tied, hle, hge]
    rfl
  have hpair : [a, b].filter (fun c => tied (key a) (key c)) = [a, b] :=
    List.filter_eq_self.2 (by simp [ha, hb])
  have hfilter := hab.filter fun c => tied (key a) (key c)
  rw [h.stable, hpair] at hfilter
  exact List.pairwise_iff_forall_sublist.1 hxs (hfilter.trans List.filter_sublist)

end RhythmChart
