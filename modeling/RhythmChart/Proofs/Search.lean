import RhythmChart.Timeline

/-!
# Where a binary search stops

If a property holds on a first part of an array and nowhere else (`Partitioned`), the search finds the
end of that part: `lt_partitionPoint_iff` says that an element has the property exactly if it stands
before the answer.  So the answer cuts the array into the elements that have the property and those that
do not (`filter_eq_take`, `filter_not_eq_drop`).
-/

namespace RhythmChart

variable {σ : Type}

/-- Whenever an element has the property, all elements before it have it. -/
def Partitioned (xs : Array σ) (p : σ → Bool) : Prop :=
  ∀ i j (_ : i ≤ j) (_ : j < xs.size), p xs[j] = true → p xs[i] = true

/-- The window holds the border: what is before it passes, what is after it fails. -/
structure Window (xs : Array σ) (p : σ → Bool) (base size : Nat) : Prop where
  before : ∀ i (_ : i < xs.size), i < base → p xs[i] = true
  after : ∀ i (_ : i < xs.size), base + size ≤ i → ¬ p xs[i] = true

/-- A window of one element is left at the border. -/
theorem lt_narrow_iff {xs : Array σ} {p : σ → Bool} (hp : Partitioned xs p) (base size : Nat)
    (h : base + size ≤ xs.size) (pos : 0 < size) (hw : Window xs p base size) (i : Nat)
    (hi : i < xs.size) : i < narrow xs p base size h pos ↔ p xs[i] = true := by
  fun_induction narrow xs p base size h pos with
  | case1 base size h pos hmany hpass ih =>
    refine ih ⟨fun j hj hlt => ?_, fun j hj hle => hw.after j hj (by omega)⟩
    exact hp j (base + size / 2) (by omega) (by omega) hpass
  | case2 base size h pos hmany hfail ih =>
    refine ih ⟨hw.before, fun j hj hle hpass => ?_⟩
    exact hfail (hp (base + size / 2) j (by omega) hj hpass)
  | case3 base size h pos hone hpass =>
    constructor
    · intro hlt
      exact hp i base (by omega) (by omega) hpass
    · intro hi'
      exact Nat.lt_of_not_le fun hge => hw.after i hi (by omega) hi'
  | case4 base size h pos hone hfail =>
    constructor
    · exact hw.before i hi
    · intro hi'
      exact Nat.lt_of_not_le fun hge => hfail (hp base i hge hi hi')

theorem lt_partitionPoint_iff {xs : Array σ} {p : σ → Bool} (hp : Partitioned xs p) (i : Nat)
    (hi : i < xs.size) : i < partitionPoint xs p ↔ p xs[i] = true := by
  have hpos : 0 < xs.size := by omega
  rw [partitionPoint, dif_pos hpos]
  exact lt_narrow_iff hp 0 xs.size _ hpos
    ⟨fun _ _ h => absurd h (Nat.not_lt_zero _), fun _ _ h => by omega⟩ i hi

/-- The same for a property that is decided. -/
theorem lt_partitionPoint_decide_iff {xs : Array σ} {p : σ → Prop} [DecidablePred p]
    (hp : ∀ i j (_ : i ≤ j) (_ : j < xs.size), p xs[j] → p xs[i]) {i : Nat} (hi : i < xs.size) :
    i < partitionPoint xs (fun x => decide (p x)) ↔ p xs[i] := by
  have hpart : Partitioned xs fun x => decide (p x) := fun i j hij hj h =>
    decide_eq_true (hp i j hij hj (of_decide_eq_true h))
  exact (lt_partitionPoint_iff hpart i hi).trans decide_eq_true_iff

/-! ## Mapped arrays -/

section Map

variable {τ : Type}

theorem narrow_map (f : τ → σ) (xs : Array τ) (p : σ → Bool) (base size : Nat)
    (h : base + size ≤ xs.size) (h' : base + size ≤ (xs.map f).size) (pos : 0 < size) :
    narrow (xs.map f) p base size h' pos = narrow xs (fun x => p (f x)) base size h pos := by
  fun_induction narrow xs (fun x => p (f x)) base size h pos with
  | case1 base size h pos hmany hpass ih =>
    rw [narrow, dif_pos hmany, if_pos (by rwa [Array.getElem_map])]
    exact ih _
  | case2 base size h pos hmany hfail ih =>
    rw [narrow, dif_pos hmany, if_neg (by rwa [Array.getElem_map])]
    exact ih _
  | case3 base size h pos hone hpass =>
    rw [narrow, dif_neg hone, if_pos (by rwa [Array.getElem_map])]
  | case4 base size h pos hone hfail =>
    rw [narrow, dif_neg hone, if_neg (by rwa [Array.getElem_map])]

/-- The search sees of an element no more than whether it passes. -/
theorem partitionPoint_map (f : τ → σ) (xs : Array τ) (p : σ → Bool) :
    partitionPoint (xs.map f) p = partitionPoint xs fun x => p (f x) := by
  unfold partitionPoint
  rcases Nat.eq_zero_or_pos xs.size with hzero | hpos
  · rw [dif_neg (by simp [hzero]), dif_neg (by omega)]
  · rw [dif_pos (by simpa using hpos), dif_pos hpos]
    simp only [Array.size_map]
    exact narrow_map f xs p 0 xs.size _ _ hpos

end Map

/-! ## The two parts -/

theorem Partitioned.of_pairwise {xs : Array σ} {p : σ → Bool}
    (h : xs.toList.Pairwise fun x y => p y = true → p x = true) : Partitioned xs p := by
  intro i j hij hj hp
  rcases Nat.eq_or_lt_of_le hij with rfl | hlt
  · exact hp
  · exact List.pairwise_iff_getElem.1 h i j (by simpa using Nat.lt_trans hlt hj) (by simpa using hj)
      hlt hp

section Parts

variable {xs : Array σ} {p : σ → Bool} (hp : Partitioned xs p)

include hp

theorem passes_of_mem_take {x : σ} (hx : x ∈ xs.toList.take (partitionPoint xs p)) : p x = true := by
  obtain ⟨i, hi, rfl⟩ := List.mem_take_iff_getElem.1 hx
  rw [Nat.lt_min, Array.length_toList] at hi
  exact (lt_partitionPoint_iff hp i hi.2).1 hi.1

theorem fails_of_mem_drop {x : σ} (hx : x ∈ xs.toList.drop (partitionPoint xs p)) : ¬ p x = true := by
  obtain ⟨i, hi, rfl⟩ := List.mem_drop_iff_getElem.1 hx
  rw [Array.length_toList, Nat.add_comm] at hi
  intro hpass
  have := (lt_partitionPoint_iff hp _ hi).2 hpass
  omega

/-- The elements that have the property are those before the answer. -/
theorem filter_eq_take : xs.toList.filter p = xs.toList.take (partitionPoint xs p) := by
  have hbefore := List.filter_eq_self.2 fun x => passes_of_mem_take hp (x := x)
  have hafter := List.filter_eq_nil_iff.2 fun x => fails_of_mem_drop hp (x := x)
  calc xs.toList.filter p
      = (xs.toList.take (partitionPoint xs p)).filter p ++
          (xs.toList.drop (partitionPoint xs p)).filter p := by
        rw [← List.filter_append, List.take_append_drop]
    _ = xs.toList.take (partitionPoint xs p) := by rw [hbefore, hafter, List.append_nil]

/-- Those that do not have it are the others. -/
theorem filter_not_eq_drop :
    (xs.toList.filter fun x => !p x) = xs.toList.drop (partitionPoint xs p) := by
  have hbefore : (xs.toList.take (partitionPoint xs p)).filter (fun x => !p x) = [] :=
    List.filter_eq_nil_iff.2 fun x hx => by simpa using passes_of_mem_take hp hx
  have hafter : (xs.toList.drop (partitionPoint xs p)).filter (fun x => !p x) =
      xs.toList.drop (partitionPoint xs p) :=
    List.filter_eq_self.2 fun x hx => by simpa using fails_of_mem_drop hp hx
  calc (xs.toList.filter fun x => !p x)
      = (xs.toList.take (partitionPoint xs p)).filter (fun x => !p x) ++
          (xs.toList.drop (partitionPoint xs p)).filter fun x => !p x := by
        rw [← List.filter_append, List.take_append_drop]
    _ = xs.toList.drop (partitionPoint xs p) := by rw [hbefore, hafter, List.nil_append]

theorem filter_append_filter_not : xs.toList.filter p ++ (xs.toList.filter fun x => !p x) = xs.toList := by
  rw [filter_eq_take hp, filter_not_eq_drop hp, List.take_append_drop]

end Parts

end RhythmChart
