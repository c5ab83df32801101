import Mathlib
import RhythmChart.Proofs.Search
import RhythmChart.Proofs.Timeline.Changes

/-!
# Timelines without rounding

Over the rationals a timeline of linear rates is a piecewise linear function.  `current p` is the knot
whose rate holds at the position `p`: the last one at or before it, or the first one.
`valueAt_eq_extend` says that the value at a position is always that of the line of its current knot,
whichever branch of the search is taken.  So the value grows by the rate of the current knot as long as
no knot is passed (`valueAt_sub`).

For the tempo this ties the changes, their resolved seconds, the seconds of a beat and the BPM at a beat
together (`BpmTimeline.seconds_sub_eq`): between two beats without a change strictly between them, the seconds
grow by sixty over the BPM at the first one, so all of them describe one continuous, strictly increasing function.
-/

namespace RhythmChart

/-- A rate by which values advance in proportion to the distance. -/
class LinearRate (ρ : Type) [Rate ρ ℚ] where
  slope : ρ → ℚ
  advance_eq : ∀ (c : ρ) (value distance : ℚ),
    Rate.advance c value distance = value + distance * slope c

namespace Timeline

variable {ρ : Type} [Rate ρ ℚ]

/-! ## Resolved timelines -/

/-- The knots are sorted, and each has the value that the one before it leads to. -/
structure Resolved (origin : ℚ) (t : Timeline ρ ℚ) : Prop where
  sorted : ∀ i j (_ : i ≤ j) (_ : j < t.knots.size), t.knots[i].position ≤ t.knots[j].position
  first : t.first.value = Rate.advance t.first.change origin t.first.position
  next : ∀ i (_ : i + 1 < t.knots.size),
    t.knots[i + 1].value = t.knots[i].extend t.knots[i + 1].position

theorem resolved_resolve (origin : ℚ) {c : ρ} {cs : List ρ}
    (h : (c :: cs).Pairwise fun a b => (Rate.position a : ℚ) ≤ Rate.position b) :
    (resolve origin c cs).Resolved origin := by
  obtain ⟨hfirst, hnext⟩ := linked_resolve origin c cs
  refine ⟨fun i j hij hj => ?_, hfirst, hnext⟩
  rcases Nat.eq_or_lt_of_le hij with rfl | hlt
  · exact le_rfl
  · rw [← map_change_resolve origin c cs] at h
    exact pairwise_changes h hlt hj

/-! ## The current knot -/

/-- The number of knots at or before a position. -/
def countLE (t : Timeline ρ ℚ) (p : ℚ) : Nat :=
  partitionPoint t.knots fun k => decide (k.position ≤ p)

def countLT (t : Timeline ρ ℚ) (p : ℚ) : Nat :=
  partitionPoint t.knots fun k => decide (k.position < p)

/-- The knot whose rate holds at a position. -/
def current (t : Timeline ρ ℚ) (p : ℚ) : Knot ρ ℚ := t.before (t.countLE p) (partitionPoint_le ..)

namespace Resolved

variable {origin : ℚ} {t : Timeline ρ ℚ}

theorem lt_countLE_iff (h : t.Resolved origin) {p : ℚ} {i : Nat} (hi : i < t.knots.size) :
    i < t.countLE p ↔ t.knots[i].position ≤ p :=
  lt_partitionPoint_decide_iff (fun i j hij hj hp => (h.sorted i j hij hj).trans hp) hi

theorem lt_countLT_iff (h : t.Resolved origin) {p : ℚ} {i : Nat} (hi : i < t.knots.size) :
    i < t.countLT p ↔ t.knots[i].position < p :=
  lt_partitionPoint_decide_iff (fun i j hij hj hp => (h.sorted i j hij hj).trans_lt hp) hi

theorem countLE_le (t : Timeline ρ ℚ) (p : ℚ) : t.countLE p ≤ t.knots.size := partitionPoint_le ..

theorem countLT_le (t : Timeline ρ ℚ) (p : ℚ) : t.countLT p ≤ t.knots.size := partitionPoint_le ..

theorem extend_eq [LinearRate ρ] (k : Knot ρ ℚ) (p : ℚ) :
    k.extend p = k.value + (p - k.position) * LinearRate.slope k.change :=
  LinearRate.advance_eq ..

theorem extend_position [LinearRate ρ] (k : Knot ρ ℚ) : k.extend k.position = k.value := by
  rw [extend_eq, sub_self, zero_mul, add_zero]

/-- At a position that all knots after `i` up to `j` share, the lines of both agree. -/
theorem extend_eq_of_shared [LinearRate ρ] (h : t.Resolved origin) {p : ℚ} {i j : Nat} (hij : i ≤ j)
    (hj : j < t.knots.size)
    (hp : ∀ k (_ : k < t.knots.size), i < k → k ≤ j → t.knots[k].position = p) :
    t.knots[i].extend p = t.knots[j].extend p := by
  induction j, hij using Nat.le_induction with
  | base => rfl
  | succ j hij ih =>
    have hlast : t.knots[j + 1].position = p := hp (j + 1) hj (by omega) le_rfl
    calc t.knots[i].extend p = t.knots[j].extend p :=
          ih (by omega) fun k hk hik hkj => hp k hk hik (by omega)
      _ = t.knots[j].extend t.knots[j + 1].position := by rw [hlast]
      _ = t.knots[j + 1].value := (h.next j hj).symm
      _ = t.knots[j + 1].extend t.knots[j + 1].position := (extend_position _).symm
      _ = t.knots[j + 1].extend p := by rw [hlast]

/-- A knot at a position lies on the line of the current knot. -/
theorem value_eq_extend_current [LinearRate ρ] (h : t.Resolved origin) {i : Nat}
    (hi : i < t.knots.size) :
    t.knots[i].value = (t.current t.knots[i].position).extend t.knots[i].position := by
  have hlt : i < t.countLE t.knots[i].position := (h.lt_countLE_iff hi).2 le_rfl
  have hle := countLE_le t t.knots[i].position
  rw [← extend_position t.knots[i]]
  refine h.extend_eq_of_shared (j := t.countLE t.knots[i].position - 1) (by omega) (by omega) ?_
  intro k hk hik hkj
  exact le_antisymm ((h.lt_countLE_iff hk).1 (by omega)) (h.sorted i k hik.le hk)

theorem current_eq {p : ℚ} {i : Nat} (hi : i < t.knots.size) (hp : t.countLE p - 1 = i) :
    t.current p = t.knots[i] := by
  subst hp
  rfl

/-- Where no knot is, as many knots are before the position as are at or before it. -/
theorem countLT_eq_countLE (h : t.Resolved origin) {p : ℚ}
    (hne : ∀ hi : t.countLT p < t.knots.size, t.knots[t.countLT p].position ≠ p) :
    t.countLT p = t.countLE p := by
  have hLE := countLE_le t p
  have hLT := countLT_le t p
  refine le_antisymm (not_lt.1 fun hlt => ?_) (not_lt.1 fun hlt => ?_)
  · have hi : t.countLE p < t.knots.size := by omega
    have hpos : t.knots[t.countLE p].position < p := (h.lt_countLT_iff hi).1 hlt
    exact lt_irrefl _ ((h.lt_countLE_iff hi).2 hpos.le)
  · have hi : t.countLT p < t.knots.size := by omega
    have hpos : t.knots[t.countLT p].position ≤ p := (h.lt_countLE_iff hi).1 hlt
    exact lt_irrefl _ ((h.lt_countLT_iff hi).2 (lt_of_le_of_ne hpos (hne hi)))

/-- The line of the first knot runs from the origin. -/
theorem advance_first [LinearRate ρ] (h : t.Resolved origin) (p : ℚ) :
    Rate.advance t.first.change origin p = t.first.extend p := by
  rw [extend_eq, h.first, LinearRate.advance_eq, LinearRate.advance_eq]
  ring

/-- The value at a position is that of the line of its current knot. -/
theorem valueAt_eq_extend [LinearRate ρ] (h : t.Resolved origin) (p : ℚ) :
    t.valueAt origin p = (t.current p).extend p := by
  have hpos := t.nonempty
  unfold valueAt
  split
  · next hp =>
    have hzero : t.countLE p - 1 = 0 := by
      by_contra hne
      have : t.knots[0].position ≤ p := (h.lt_countLE_iff hpos).1 (by omega)
      exact absurd hp (not_lt.2 this)
    rw [current_eq hpos hzero]
    exact h.advance_first p
  · have hbefore (heq : t.countLT p = t.countLE p) :
        t.before (t.countLT p) (partitionPoint_le ..) = t.current p :=
      (current_eq (by have := countLT_le t p; omega) (by rw [heq])).symm
    dsimp only
    split
    · next k hk =>
      obtain ⟨hi, rfl⟩ := Array.getElem?_eq_some_iff.1 hk
      split
      · next hkp =>
        have hkp := eq_of_beq hkp
        conv_rhs => rw [← hkp]
        exact h.value_eq_extend_current hi
      · next hkp =>
        exact congrArg (Knot.extend · p)
          (hbefore (h.countLT_eq_countLE fun _ heq => hkp (beq_iff_eq.2 heq)))
    · next hk =>
      have hsize : t.knots.size ≤ t.countLT p := Array.getElem?_eq_none_iff.1 hk
      exact congrArg (Knot.extend · p)
        (hbefore (h.countLT_eq_countLE fun hi => absurd hi (not_lt.2 hsize)))

/-- Up to the first knot the line runs from the origin. -/
theorem valueAt_of_le_first [LinearRate ρ] (h : t.Resolved origin) {p : ℚ}
    (hp : p ≤ t.first.position) : t.valueAt origin p = Rate.advance t.first.change origin p := by
  rcases hp.lt_or_eq with hlt | rfl
  · rw [valueAt, if_pos hlt]
  · rw [← h.first, h.valueAt_eq_extend]
    exact (h.value_eq_extend_current t.nonempty).symm

/-- Between two positions with no knot strictly between them, the value grows by the current rate of
the first one. -/
theorem valueAt_sub [LinearRate ρ] (h : t.Resolved origin) {p q : ℚ} (hpq : p < q)
    (hfree : ∀ i (_ : i < t.knots.size), ¬ (p < t.knots[i].position ∧ t.knots[i].position < q)) :
    t.valueAt origin q - t.valueAt origin p = (q - p) * LinearRate.slope (t.current p).change := by
  have hpos := t.nonempty
  have hP := countLE_le t p
  have hQ := countLE_le t q
  have hle : t.countLE p ≤ t.countLE q := by
    refine not_lt.1 fun hlt => ?_
    have hi : t.countLE q < t.knots.size := by omega
    have : t.knots[t.countLE q].position ≤ p := (h.lt_countLE_iff hi).1 hlt
    exact lt_irrefl _ ((h.lt_countLE_iff hi).2 (this.trans hpq.le))
  have hline : (t.current q).extend q = (t.current p).extend q := by
    refine (h.extend_eq_of_shared (i := t.countLE p - 1) (j := t.countLE q - 1) (by omega) (by omega)
      fun k hk hik hkj => ?_).symm
    -- A knot passed on the way from `p` to `q` is after `p` and not before `q`.
    have hafter : p < t.knots[k].position :=
      not_le.1 fun hkp => by have := (h.lt_countLE_iff hk).2 hkp; omega
    have hbefore : t.knots[k].position ≤ q := (h.lt_countLE_iff hk).1 (by omega)
    exact le_antisymm hbefore (not_lt.1 fun hkq => hfree k hk ⟨hafter, hkq⟩)
  rw [h.valueAt_eq_extend, h.valueAt_eq_extend, hline, extend_eq, extend_eq]
  ring

/-- What holds between positions with no knot strictly between them, and passes on from a position to
the next, holds between all positions. -/
theorem of_pieces (h : t.Resolved origin) {P : ℚ → ℚ → Prop}
    (trans : ∀ p s q, p < s → s < q → P p s → P s q → P p q)
    (piece : ∀ p q, p < q →
      (∀ i (_ : i < t.knots.size), ¬ (p < t.knots[i].position ∧ t.knots[i].position < q)) → P p q)
    {p q : ℚ} (hpq : p < q) : P p q := by
  -- The induction is on the number of knots strictly between the two positions.
  induction hn : t.countLT q - t.countLE p using Nat.strong_induction_on generalizing p q with
  | _ n ih =>
    by_cases hfree : ∀ i (_ : i < t.knots.size), ¬ (p < t.knots[i].position ∧ t.knots[i].position < q)
    · exact piece p q hpq hfree
    · push Not at hfree
      obtain ⟨i, hi, hpi, hiq⟩ := hfree
      have hLE : t.countLE p ≤ i := not_lt.1 fun hlt => absurd hpi (not_lt.2 ((h.lt_countLE_iff hi).1 hlt))
      have hLT : i < t.countLT q := (h.lt_countLT_iff hi).2 hiq
      have hLE' : i < t.countLE t.knots[i].position := (h.lt_countLE_iff hi).2 le_rfl
      have hLT' : t.countLT t.knots[i].position ≤ i :=
        not_lt.1 fun hlt => lt_irrefl _ ((h.lt_countLT_iff hi).1 hlt)
      exact trans p _ q hpi hiq (ih _ (by omega) hpi rfl) (ih _ (by omega) hiq rfl)

theorem exists_current_eq (t : Timeline ρ ℚ) (p : ℚ) :
    ∃ i, ∃ hi : i < t.knots.size, t.current p = t.knots[i] := by
  have hpos := t.nonempty
  have hle := countLE_le t p
  exact ⟨t.countLE p - 1, by omega, rfl⟩

theorem current_mem (t : Timeline ρ ℚ) (p : ℚ) : t.current p ∈ t.knots := by
  obtain ⟨i, hi, hcurrent⟩ := exists_current_eq t p
  exact hcurrent ▸ Array.getElem_mem hi

/-- The current knot is at the last position at or before the given one, or at the first one. -/
theorem current_cases (h : t.Resolved origin) (p : ℚ) :
    ((t.current p).position ≤ p ∧
      ∀ k ∈ t.knots, k.position ≤ p → k.position ≤ (t.current p).position) ∨
    ∀ k ∈ t.knots, p < k.position ∧ (t.current p).position ≤ k.position := by
  have hpos := t.nonempty
  have hle := countLE_le t p
  by_cases hzero : t.countLE p = 0
  · right
    intro k hk
    obtain ⟨i, hi, rfl⟩ := Array.mem_iff_getElem.1 hk
    rw [current_eq hpos (by omega)]
    refine ⟨not_le.1 fun hkp => ?_, h.sorted 0 i (by omega) hi⟩
    have := (h.lt_countLE_iff hi).2 hkp
    omega
  · left
    have hlast : t.countLE p - 1 < t.knots.size := by omega
    rw [current_eq hlast rfl]
    refine ⟨(h.lt_countLE_iff hlast).1 (by omega), fun k hk hkp => ?_⟩
    obtain ⟨i, hi, rfl⟩ := Array.mem_iff_getElem.1 hk
    have := (h.lt_countLE_iff hi).2 hkp
    exact h.sorted i _ (by omega) hlast

/-- With rates above zero the value strictly increases. -/
theorem strictMono_valueAt [LinearRate ρ] (h : t.Resolved origin)
    (hslope : ∀ i (_ : i < t.knots.size), 0 < LinearRate.slope t.knots[i].change) :
    StrictMono (t.valueAt origin) := by
  intro p q hpq
  refine h.of_pieces (P := fun p q => t.valueAt origin p < t.valueAt origin q)
    (fun _ _ _ _ _ => lt_trans) (fun p q hpq hfree => ?_) hpq
  obtain ⟨i, hi, hcurrent⟩ := exists_current_eq t p
  have hpos : 0 < LinearRate.slope (t.current p).change := hcurrent ▸ hslope i hi
  have hsub := h.valueAt_sub hpq hfree
  have : 0 < (q - p) * LinearRate.slope (t.current p).change := mul_pos (sub_pos.2 hpq) hpos
  linarith

/-- The value changes at most by a constant times the distance. -/
theorem exists_lipschitz [LinearRate ρ] (h : t.Resolved origin) :
    ∃ K : ℚ, ∀ p q, |t.valueAt origin q - t.valueAt origin p| ≤ K * |q - p| := by
  set slopes := t.knots.toList.map fun k => |LinearRate.slope k.change| with hslopes
  have hnonneg : ∀ x ∈ slopes, 0 ≤ x := by
    intro x hx
    obtain ⟨k, -, rfl⟩ := List.mem_map.1 hx
    exact abs_nonneg _
  have hbound (p : ℚ) : |LinearRate.slope (t.current p).change| ≤ slopes.sum := by
    obtain ⟨i, hi, hcurrent⟩ := exists_current_eq t p
    refine List.single_le_sum hnonneg _ (List.mem_map.2 ⟨t.knots[i], ?_, by rw [hcurrent]⟩)
    exact Array.getElem_mem_toList hi
  have hlt {p q : ℚ} (hpq : p < q) :
      |t.valueAt origin q - t.valueAt origin p| ≤ slopes.sum * (q - p) := by
    refine h.of_pieces (P := fun p q =>
      |t.valueAt origin q - t.valueAt origin p| ≤ slopes.sum * (q - p)) ?_ ?_ hpq
    · intro p s q _ _ hps hsq
      have := abs_sub_le (t.valueAt origin q) (t.valueAt origin s) (t.valueAt origin p)
      linarith
    · intro p q hpq hfree
      rw [h.valueAt_sub hpq hfree, abs_mul, abs_of_pos (sub_pos.2 hpq), mul_comm]
      exact mul_le_mul_of_nonneg_right (hbound p) (sub_nonneg.2 hpq.le)
  refine ⟨slopes.sum, fun p q => ?_⟩
  rcases lt_trichotomy p q with hpq | rfl | hpq
  · rw [abs_of_pos (sub_pos.2 hpq)]
    exact hlt hpq
  · simp
  · rw [abs_sub_comm, abs_sub_comm q p, abs_of_pos (sub_pos.2 hpq)]
    exact hlt hpq

theorem continuous_valueAt [LinearRate ρ] (h : t.Resolved origin) :
    Continuous (t.valueAt origin) := by
  obtain ⟨K, hK⟩ := h.exists_lipschitz
  refine (LipschitzWith.of_dist_le' (K := (K : ℝ)) fun p q => ?_).continuous
  rw [Rat.dist_eq, Rat.dist_eq]
  exact_mod_cast hK q p

end Resolved

end Timeline

/-! ## From beats to seconds -/

instance : LinearRate (BpmChange ℚ) where
  slope c := 60 / c.bpm.val
  advance_eq c value distance := by
    change value + distance / c.bpm.val * ((60 : ℕ) : ℚ) = _
    push_cast
    ring

namespace BpmTimeline

theorem pairwise_sort (cs : List (BpmChange ℚ)) : (sort cs).Pairwise fun a b => a.beat ≤ b.beat :=
  (sortedFrom_mergeSort BpmChange.beat cs).ordered.imp of_decide_eq_true

theorem exists_resolved {cs : List (BpmChange ℚ)} (h : cs ≠ []) (waveOffset : ℚ) :
    ∃ t, ofChanges? cs waveOffset = some t ∧ t.waveOffset = waveOffset ∧
      t.knots.toList.map Knot.change = sort cs ∧ t.toTimeline.Resolved (-waveOffset) := by
  have hsort := pairwise_sort cs
  unfold ofChanges?
  cases hcs : sort cs with
  | nil => exact absurd (List.perm_nil.1 (hcs ▸ (List.mergeSort_perm cs _).symm)) h
  | cons c rest =>
    rw [hcs] at hsort
    exact ⟨_, rfl, rfl, Timeline.map_change_resolve _ c rest, Timeline.resolved_resolve _ hsort⟩

theorem slope_current_eq (t : BpmTimeline ℚ) (beat : ℚ) :
    LinearRate.slope (t.current beat).change = 60 / (t.bpmAt beat).val := rfl

/-- The changes of a timeline, their seconds, the seconds of a beat and the BPM at a beat describe one
continuous and strictly increasing function. -/
theorem seconds_sub_eq {cs : List (BpmChange ℚ)} (h : cs ≠ []) (waveOffset : ℚ) :
    ∃ t, ofChanges? cs waveOffset = some t ∧
      (t.knots.toList.map Knot.change).Perm cs ∧
      (∀ b b', b < b' → (∀ c ∈ cs, ¬ (b < c.beat ∧ c.beat < b')) →
        t.seconds b' - t.seconds b = 60 * (b' - b) / (t.bpmAt b).val) ∧
      (∀ k ∈ t.knots, t.seconds k.position = k.value) ∧
      StrictMono t.seconds ∧ Continuous t.seconds := by
  obtain ⟨t, ht, rfl, hchanges, hresolved⟩ := exists_resolved h waveOffset
  have hperm : (t.knots.toList.map Knot.change).Perm cs := hchanges ▸ List.mergeSort_perm cs _
  have hpositive (i : Nat) (hi : i < t.knots.size) : 0 < LinearRate.slope t.knots[i].change :=
    div_pos (by norm_num) t.knots[i].change.bpm.pos
  refine ⟨t, ht, hperm, fun b b' hb hfree => ?_, fun k hk => ?_,
    hresolved.strictMono_valueAt hpositive, hresolved.continuous_valueAt⟩
  · have hsub := hresolved.valueAt_sub hb fun i hi => ?_
    · rw [slope_current_eq] at hsub
      exact hsub.trans (by ring)
    · refine hfree _ (hperm.mem_iff.1 (List.mem_map_of_mem (Array.getElem_mem_toList hi)))
  · obtain ⟨i, hi, rfl⟩ := Array.mem_iff_getElem.1 hk
    exact (hresolved.valueAt_eq_extend _).trans (hresolved.value_eq_extend_current hi).symm

/-- Two changes in reverse order, from a beat between them to the later one. -/
theorem seconds_sub_eq_of_two_changes :
    ∃ t : BpmTimeline ℚ,
      ofChanges? [⟨⟨2⟩, ⟨⟨60, rfl⟩, by decide⟩, 8⟩, ⟨⟨1⟩, ⟨⟨120, rfl⟩, by decide⟩, 0⟩] 10 = some t ∧
      t.seconds 8 - t.seconds 4 = 60 * (8 - 4) / (t.bpmAt 4).val ∧
      t.seconds t.first.position = t.first.value := by
  obtain ⟨t, ht, -, hsub, hknots, -, -⟩ := seconds_sub_eq (List.cons_ne_nil
    (⟨⟨2⟩, ⟨⟨60, rfl⟩, by decide⟩, 8⟩ : BpmChange ℚ) [⟨⟨1⟩, ⟨⟨120, rfl⟩, by decide⟩, 0⟩]) 10
  refine ⟨t, ht, hsub 4 8 (by norm_num) ?_, hknots _ (Array.getElem_mem _)⟩
  intro c hc
  rcases List.mem_pair.1 hc with rfl | rfl <;> norm_num

end BpmTimeline

end RhythmChart
