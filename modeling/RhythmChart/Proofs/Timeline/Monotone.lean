import RhythmChart.Proofs.Scalar.Monotone
import RhythmChart.Proofs.Search
import RhythmChart.Proofs.Timeline.Changes

/-!
# Timelines with rounding

Over binary64 numbers a timeline is not piecewise linear, but it is still monotone.  `branch_valueAt` says
which knot gives the value at a position: the first one on it, or else the last one before it, or else
none.  Two neighbouring branches meet in the value of a knot, which the knot before it leads to; so if
rates do not fall (`Ascending`) and no value is undefined, the timeline does not fall either
(`Chained.valueAt_le`).
-/

namespace RhythmChart

open Binary64

/-! ## Rates that do not fall -/

/-- Values do not fall as the distance grows. -/
structure Ascending {ρ : Type} [Rate ρ Float] (c : ρ) : Prop where
  mono : ∀ {v v' d d' : Float}, v ≤ v' → d ≤ d' → (Rate.advance c v d).isNaN = false →
    (Rate.advance c v' d').isNaN = false → Rate.advance c v d ≤ Rate.advance c v' d'
  le_advance : ∀ {v d : Float}, 0 ≤ d → (Rate.advance c v d).isNaN = false → v ≤ Rate.advance c v d
  defined : ∀ {v d : Float}, (Rate.advance c v d).isNaN = false → v.isNaN = false ∧ d.isNaN = false

theorem MeasureChange.ascending {c : MeasureChange Float} (h : 0 ≤ c.beats.val) : Ascending c where
  mono {v v' d d'} hv hd hdef hdef' := by
    obtain ⟨-, hmul⟩ := isNaN_of_add hdef
    obtain ⟨-, hmul'⟩ := isNaN_of_add hdef'
    exact add_le_add hv (mul_le_mul_right hd h c.beats.finite hmul hmul') hdef hdef'
  le_advance {v d} hd hdef := by
    obtain ⟨-, hmul⟩ := isNaN_of_add hdef
    exact le_add_of_nonneg (mul_nonneg hd h c.beats.finite hmul) hdef
  defined hdef := by
    obtain ⟨hv, hmul⟩ := isNaN_of_add hdef
    exact ⟨hv, (isNaN_of_mul hmul).1⟩

namespace BpmChange

theorem nonneg_sixty : (0 : Float) ≤ ((60 : Nat) : Float) := by decide

theorem isFinite_sixty : ((60 : Nat) : Float).isFinite = true := rfl

theorem ascending (c : BpmChange Float) : Ascending c where
  mono {v v' d d'} hv hd hdef hdef' := by
    obtain ⟨-, hmul⟩ := isNaN_of_add hdef
    obtain ⟨-, hmul'⟩ := isNaN_of_add hdef'
    have hdiv := div_le_div_right hd c.bpm.pos c.bpm.finite (isNaN_of_mul hmul).1 (isNaN_of_mul hmul').1
    exact add_le_add hv (mul_le_mul_right hdiv nonneg_sixty isFinite_sixty hmul hmul') hdef hdef'
  le_advance {v d} hd hdef := by
    obtain ⟨-, hmul⟩ := isNaN_of_add hdef
    have hdiv := div_nonneg hd c.bpm.pos c.bpm.finite (isNaN_of_mul hmul).1
    exact le_add_of_nonneg (mul_nonneg hdiv nonneg_sixty isFinite_sixty hmul) hdef
  defined hdef := by
    obtain ⟨hv, hmul⟩ := isNaN_of_add hdef
    exact ⟨hv, (isNaN_of_div (isNaN_of_mul hmul).1).1⟩

end BpmChange

namespace Timeline

variable {ρ : Type} [Rate ρ Float] {t : Timeline ρ Float} {origin p q v w : Float}

/-! ## Which knot gives a value -/

/-- The positions of the knots ascend, and none is undefined. -/
def Sorted (t : Timeline ρ Float) : Prop :=
  ∀ i j (_ : i ≤ j) (_ : j < t.knots.size), t.knots[i].position ≤ t.knots[j].position

/-- The value at a position comes from the first knot's rate before all knots, from the first knot on the
position if there is one, and else from the rate of the last knot before it. -/
inductive Branch (t : Timeline ρ Float) (origin p : Float) : Float → Prop
  | before (lt : p < t.first.position) : Branch t origin p (Rate.advance t.first.change origin p)
  | on (i : Nat) (hi : i < t.knots.size) (eq : t.knots[i].position == p)
      (first : ∀ j (_ : j < i), t.knots[j].position < p) : Branch t origin p t.knots[i].value
  | after (i : Nat) (hi : i < t.knots.size) (lt : t.knots[i].position < p)
      (last : ∀ j (_ : i < j) (_ : j < t.knots.size), p < t.knots[j].position) :
      Branch t origin p (t.knots[i].extend p)

/-- The number of knots before a position. -/
def passed (t : Timeline ρ Float) (p : Float) : Nat :=
  partitionPoint t.knots fun k => decide (k.position < p)

theorem Sorted.lt_passed_iff (h : t.Sorted) {i : Nat} (hi : i < t.knots.size) :
    i < t.passed p ↔ t.knots[i].position < p :=
  lt_partitionPoint_decide_iff (p := fun k : Knot ρ Float => k.position < p)
    (fun i j hij hj hlt => lt_of_le_of_lt (h i j hij hj) hlt) hi

theorem Sorted.isNaN_position (h : t.Sorted) {i : Nat} (hi : i < t.knots.size) :
    t.knots[i].position.isNaN = false :=
  le_refl_iff.1 (h i i (Nat.le_refl i) hi)

theorem passed_le (t : Timeline ρ Float) (p : Float) : t.passed p ≤ t.knots.size := partitionPoint_le ..

/-- The last knot before a position gives the value there, unless the next one is on it. -/
theorem Sorted.branch_before (h : t.Sorted) (hp : p.isNaN = false) (hpos : 0 < t.passed p)
    (hnext : ∀ hi : t.passed p < t.knots.size, ¬ (t.knots[t.passed p].position == p) = true) :
    t.Branch origin p ((t.before (t.passed p) (passed_le t p)).extend p) := by
  have hle := passed_le t p
  refine .after (t.passed p - 1) (by omega) ((h.lt_passed_iff _).1 (by omega)) fun j hj hj' => ?_
  have hlt : t.passed p < t.knots.size := by omega
  have hnot {k : Nat} (hk : k < t.knots.size) (hge : t.passed p ≤ k) : p ≤ t.knots[k].position :=
    le_of_not_lt hp (h.isNaN_position hk) fun hlt => Nat.not_lt.2 hge ((h.lt_passed_iff hk).2 hlt)
  have hbetween : p < t.knots[t.passed p].position := by
    by_contra hnlt
    exact hnext hlt (beq_iff_le.2 ⟨le_of_not_lt (h.isNaN_position hlt) hp hnlt, hnot hlt (Nat.le_refl _)⟩)
  exact lt_of_lt_of_le hbetween (h _ j (by omega) hj')

theorem Sorted.branch_valueAt (h : t.Sorted) (hp : p.isNaN = false) :
    t.Branch origin p (t.valueAt origin p) := by
  unfold valueAt
  split
  · next hlt => exact .before hlt
  next hfirst =>
  have hsize := t.nonempty
  have hpassed : partitionPoint t.knots (fun k => decide (k.position < p)) = t.passed p := rfl
  dsimp only
  split
  · next k hk =>
    obtain ⟨hi, rfl⟩ := Array.getElem?_eq_some_iff.1 hk
    split
    · next heq => exact .on _ hi heq fun j hj => (h.lt_passed_iff _).1 hj
    · next hne =>
      refine h.branch_before hp (Nat.pos_of_ne_zero fun hzero => ?_) fun _ => hne
      -- No knot is before the position and the first one is not after it, so it is on it.
      have hle : t.first.position ≤ p := le_of_not_lt (h.isNaN_position hsize) hp hfirst
      have hge : p ≤ t.first.position := by
        refine le_of_not_lt hp (h.isNaN_position hsize) fun hlt => ?_
        exact absurd ((h.lt_passed_iff hsize).2 hlt) (by omega)
      simp only [hpassed, hzero] at hne
      exact hne (beq_iff_le.2 ⟨hle, hge⟩)
  · next hnone =>
    have hge := Array.getElem?_eq_none_iff.1 hnone
    rw [hpassed] at hge
    exact h.branch_before hp (by omega) fun hi => absurd hi (by omega)

/-- The first knot on a position gives the value there, whatever the order of the knots after it, as long
as none of them is before it. -/
theorem valueAt_eq_value {i : Nat} (hi : i < t.knots.size) (heq : (t.knots[i].position == p) = true)
    (hbefore : ∀ j (_ : j < t.knots.size), j < i → t.knots[j].position < p)
    (hafter : ∀ j (_ : j < t.knots.size), i ≤ j → ¬ t.knots[j].position < p) :
    t.valueAt origin p = t.knots[i].value := by
  have hlt_iff {j : Nat} (hj : j < t.knots.size) : j < t.passed p ↔ t.knots[j].position < p := by
    refine lt_partitionPoint_decide_iff (p := fun k : Knot ρ Float => k.position < p)
      (fun j k hjk hk hlt => hbefore j _ ?_) hj
    exact Nat.lt_of_not_le fun hij => hafter k hk (Nat.le_trans hij hjk) hlt
  have hpassed : t.passed p = i := by
    refine Nat.le_antisymm (Nat.le_of_not_lt fun hlt => ?_) (Nat.le_of_not_lt fun hlt => ?_)
    · exact hafter i hi (Nat.le_refl i) ((hlt_iff hi).1 hlt)
    · have hsize : t.passed p < t.knots.size := by omega
      exact Nat.lt_irrefl _ ((hlt_iff hsize).2 (hbefore _ hsize hlt))
  have hget : t.knots[t.passed p]? = some t.knots[i] := by
    rw [hpassed]
    exact Array.getElem?_eq_getElem hi
  have hfirst : ¬ p < t.first.position := by
    rcases Nat.eq_zero_or_pos i with rfl | hpos
    · exact not_lt_of_le (beq_iff_le.1 heq).1
    · exact not_lt_of_le (le_of_lt (hbefore 0 t.nonempty hpos))
  rw [valueAt, if_neg hfirst]
  dsimp only
  split
  · next k hk =>
    obtain rfl : t.knots[i] = k := Option.some.inj (hget.symm.trans hk)
    rw [if_pos heq]
  · next hnone =>
    change t.knots[t.passed p]? = none at hnone
    rw [hget] at hnone
    cases hnone

/-! ## Values that do not fall -/

/-- The knots are sorted, each has the value that the one before it leads to, and rates do not fall. -/
structure Chained (t : Timeline ρ Float) (origin : Float) : Prop extends Linked t origin where
  sorted : t.Sorted
  ascending : ∀ i (_ : i < t.knots.size), Ascending t.knots[i].change
  defined : ∀ i (_ : i < t.knots.size), t.knots[i].value.isNaN = false

namespace Chained

variable (h : t.Chained origin)

include h

theorem extend_le_extend {i : Nat} (hi : i < t.knots.size) (hpq : p ≤ q)
    (hp : (t.knots[i].extend p).isNaN = false) (hq : (t.knots[i].extend q).isNaN = false) :
    t.knots[i].extend p ≤ t.knots[i].extend q := by
  have hd := (h.ascending i hi).defined hp
  have hd' := (h.ascending i hi).defined hq
  exact (h.ascending i hi).mono (le_refl_iff.2 hd.1) (sub_le_sub_right hpq hd.2 hd'.2) hp hq

theorem value_le_extend {i : Nat} (hi : i < t.knots.size) (hle : t.knots[i].position ≤ p)
    (hp : (t.knots[i].extend p).isNaN = false) : t.knots[i].value ≤ t.knots[i].extend p :=
  (h.ascending i hi).le_advance (sub_nonneg hle ((h.ascending i hi).defined hp).2) hp

/-- A knot's rate leads to the next knot. -/
theorem extend_le_value {i : Nat} (hi : i + 1 < t.knots.size) (hle : p ≤ t.knots[i + 1].position)
    (hp : (t.knots[i].extend p).isNaN = false) : t.knots[i].extend p ≤ t.knots[i + 1].value := by
  have hdef := h.defined (i + 1) hi
  rw [h.next i hi] at hdef ⊢
  exact h.extend_le_extend (by omega) hle hp hdef

theorem value_le_value {i j : Nat} (hij : i ≤ j) (hj : j < t.knots.size) :
    t.knots[i].value ≤ t.knots[j].value := by
  induction j, hij using Nat.le_induction with
  | base => exact le_refl_iff.2 (h.defined i hj)
  | succ j hij ih =>
    have hle := h.sorted j (j + 1) (Nat.le_succ j) hj
    have hdef := h.defined (j + 1) hj
    refine le_trans (ih (by omega)) ?_
    rw [h.next j hj] at hdef ⊢
    exact h.value_le_extend (by omega) hle hdef

/-- The first knot's rate leads to it from the origin. -/
theorem advance_le_first (horigin : origin.isNaN = false) (hp : p ≤ t.first.position)
    (hdef : (Rate.advance t.first.change origin p).isNaN = false) :
    Rate.advance t.first.change origin p ≤ t.first.value := by
  have hfirst : t.first.value.isNaN = false := h.defined 0 t.nonempty
  rw [h.first] at hfirst ⊢
  exact (h.ascending 0 t.nonempty).mono (le_refl_iff.2 horigin) hp hdef hfirst

theorem first_le_value {i : Nat} (hi : i < t.knots.size) : t.first.value ≤ t.knots[i].value :=
  h.value_le_value (Nat.zero_le i) hi

theorem branch_le (horigin : origin.isNaN = false) (hpq : p ≤ q) (hv : t.Branch origin p v)
    (hw : t.Branch origin q w) (hdef : v.isNaN = false) (hdef' : w.isNaN = false) : v ≤ w := by
  have hfirst (i : Nat) (hi : i < t.knots.size) : t.first.position ≤ t.knots[i].position :=
    h.sorted 0 i (Nat.zero_le i) hi
  cases hv with
  | before hp =>
    have hbelow := h.advance_le_first horigin (le_of_lt hp) hdef
    cases hw with
    | before hq => exact (h.ascending 0 t.nonempty).mono (le_refl_iff.2 horigin) hpq hdef hdef'
    | on j hj eq first => exact le_trans hbelow (h.first_le_value hj)
    | after j hj hq last =>
      exact le_trans hbelow (le_trans (h.first_le_value hj) (h.value_le_extend hj (le_of_lt hq) hdef'))
  | on i hi eq first =>
    obtain ⟨hip, hpi⟩ := beq_iff_le.1 eq
    cases hw with
    | before hq =>
      exact absurd hq (not_lt_of_le (le_trans (hfirst i hi) (le_trans hip hpq)))
    | on j hj eq' first' =>
      rcases Nat.lt_or_ge j i with hji | hij
      · exact absurd (first j hji) (not_lt_of_le (le_trans hpq (beq_iff_le.1 eq').2))
      · exact h.value_le_value hij hj
    | after j hj hq last =>
      rcases Nat.lt_or_ge j i with hji | hij
      · exact absurd (last i hji hi) (not_lt_of_le (le_trans hip hpq))
      · exact le_trans (h.value_le_value hij hj) (h.value_le_extend hj (le_of_lt hq) hdef')
  | after i hi hp last =>
    -- A later knot is met on the way: its value is what this knot leads to.
    have hcross {j : Nat} (hij : i < j) (hj : j < t.knots.size) :
        t.knots[i].extend p ≤ t.knots[j].value := by
      have hnext := last (i + 1) (Nat.lt_succ_self i) (by omega)
      exact le_trans (h.extend_le_value (by omega) (le_of_lt hnext) hdef) (h.value_le_value hij hj)
    cases hw with
    | before hq =>
      exact absurd hq (not_lt_of_le (le_trans (hfirst i hi) (le_trans (le_of_lt hp) hpq)))
    | on j hj eq first =>
      rcases Nat.lt_or_ge i j with hij | hji
      · exact hcross hij hj
      · have hle := le_trans (beq_iff_le.1 eq).2 (h.sorted j i hji hi)
        exact absurd hp (not_lt_of_le (le_trans hpq hle))
    | after j hj hq last' =>
      rcases Nat.lt_trichotomy i j with hij | rfl | hji
      · exact le_trans (hcross hij hj) (h.value_le_extend hj (le_of_lt hq) hdef')
      · exact h.extend_le_extend hi hpq hdef hdef'
      · exact absurd (last' i hji hi) (not_lt_of_le (le_trans (le_of_lt hp) hpq))

/-- The value does not fall from one position to a later one. -/
theorem valueAt_le (horigin : origin.isNaN = false) (hpq : p ≤ q)
    (hdef : (t.valueAt origin p).isNaN = false) (hdef' : (t.valueAt origin q).isNaN = false) :
    t.valueAt origin p ≤ t.valueAt origin q := by
  obtain ⟨hp, hq, -⟩ := le_iff.1 hpq
  exact h.branch_le horigin hpq (h.sorted.branch_valueAt hp) (h.sorted.branch_valueAt hq) hdef hdef'

end Chained

end Timeline

end RhythmChart
