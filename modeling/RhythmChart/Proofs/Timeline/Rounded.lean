import RhythmChart.Proofs.Timeline.Monotone

/-!
# Measures and tempo with rounding

Over binary64 numbers the beats of a measure timeline do not fall if no measure has less than no beats
(`Onward.beat_le_beat`), and the seconds of a tempo do not fall if no change has undefined seconds
(`BpmTimeline.seconds_le_seconds`).  Over no distance no rate changes them: changes on one beat have the same
seconds (`BpmTimeline.value_beq_value`), and the beat zero has those of the origin, as long as no change is
before it (`BpmTimeline.seconds_zero`).
-/

namespace RhythmChart

open Binary64

/-! ## From measures to beats -/

namespace MeasureChange

/-- Going on from a beat that is at least zero leads to another one. -/
theorem advance_nonneg {c : MeasureChange Float} (hc : 0 ≤ c.beats.val) {beat d : Float}
    (hbeat : 0 ≤ beat) (hd : 0 ≤ d) (hfin : d.isFinite = true) : 0 ≤ Rate.advance c beat d :=
  add_nonneg hbeat (mul_nonneg hd hc c.beats.finite (isNearest_mul hfin c.beats.finite).defined)

end MeasureChange

namespace MeasureTimeline

/-- Measures ascend from zero on, and none has less than no beats. -/
structure Onward (t : MeasureTimeline Float) : Prop extends t.Linked 0 where
  sorted : t.Sorted
  nonneg : ∀ i (_ : i < t.knots.size), 0 ≤ t.knots[i].position
  finite : ∀ i (_ : i < t.knots.size), t.knots[i].position.isFinite = true
  rates : ∀ i (_ : i < t.knots.size), 0 ≤ t.knots[i].change.beats.val

namespace Onward

variable {t : MeasureTimeline Float} (h : t.Onward) {p q : Float}

include h

theorem extend_nonneg {i : Nat} (hi : i < t.knots.size) (hvalue : 0 ≤ t.knots[i].value)
    (hle : t.knots[i].position ≤ p) (hp : p.isFinite = true) : 0 ≤ t.knots[i].extend p := by
  have hsub := isFinite_sub (h.nonneg i hi) hle hp
  exact MeasureChange.advance_nonneg (h.rates i hi) hvalue (sub_nonneg hle (isNaN_of_isFinite hsub)) hsub

theorem value_nonneg {i : Nat} (hi : i < t.knots.size) : 0 ≤ t.knots[i].value := by
  induction i with
  | zero =>
    have hfirst : t.knots[0].value = _ := h.first
    rw [hfirst]
    exact MeasureChange.advance_nonneg (h.rates 0 hi) (by decide) (h.nonneg 0 hi) (h.finite 0 hi)
  | succ i ih =>
    rw [h.next i hi]
    exact h.extend_nonneg _ (ih (by omega)) (h.sorted i (i + 1) (by omega) hi) (h.finite (i + 1) hi)

theorem chained : t.Chained 0 where
  toLinked := h.toLinked
  sorted := h.sorted
  ascending i hi := MeasureChange.ascending (h.rates i hi)
  defined _ hi := (le_iff.1 (h.value_nonneg hi)).2.1

/-- From the measure zero on no beat is before the beat zero. -/
theorem beat_nonneg (hp : 0 ≤ p) (hfin : p.isFinite = true) : 0 ≤ t.beat p := by
  have hbranch : t.Branch 0 p (t.beat p) := h.sorted.branch_valueAt (isNaN_of_isFinite hfin)
  generalize t.beat p = v at hbranch
  cases hbranch with
  | before => exact MeasureChange.advance_nonneg (h.rates 0 t.nonempty) (by decide) hp hfin
  | on i hi => exact h.value_nonneg hi
  | after i hi lt => exact h.extend_nonneg hi (h.value_nonneg hi) (le_of_lt lt) hfin

/-- Beats do not fall from one position to a later one. -/
theorem beat_le_beat (hp : 0 ≤ p) (hpq : p ≤ q) (hfin : q.isFinite = true) :
    t.beat p ≤ t.beat q := by
  have hbeat := h.beat_nonneg hp (isFinite_of_le hp hpq hfin)
  have hbeat' := h.beat_nonneg (le_trans hp hpq) hfin
  exact h.chained.valueAt_le rfl hpq (le_iff.1 hbeat).2.1 (le_iff.1 hbeat').2.1

end Onward

end MeasureTimeline

/-! ## From beats to seconds -/

namespace BpmTimeline

variable {cs : List (BpmChange Float)} {waveOffset p q : Float} {t : BpmTimeline Float}

/-- Changes are in the total order of their beats. -/
theorem rank_le_rank (h : ofChanges? cs waveOffset = some t) {i j : Nat} (hij : i < j)
    (hj : j < t.knots.size) : rank t.knots[i].position ≤ rank t.knots[j].position :=
  of_decide_eq_true (Timeline.pairwise_changes (sortedFrom_ofChanges? h).ordered hij hj)

/-- A change whose seconds are defined is at a beat that is. -/
theorem isNaN_position (h : ofChanges? cs waveOffset = some t) {i : Nat} (hi : i < t.knots.size)
    (hdef : t.knots[i].value.isNaN = false) : t.knots[i].position.isNaN = false := by
  have hlinked := linked_ofChanges? h
  cases i with
  | zero =>
    have hfirst : t.knots[0].value = _ := hlinked.first
    rw [hfirst] at hdef
    exact ((BpmChange.ascending _).defined hdef).2
  | succ i =>
    rw [hlinked.next i hi] at hdef
    exact (isNaN_of_sub ((BpmChange.ascending _).defined hdef).2).1

/-- No distance lasts no time. -/
theorem duration_beq_zero (c : BpmChange Float) {d : Float} (hd : (d == 0) = true) :
    (d / c.bpm.val * ((60 : Nat) : Float) == 0) = true := by
  obtain ⟨hle, hge⟩ := beq_iff_le.1 hd
  have hfin : d.isFinite = true := isFinite_of_le hge hle rfl
  have hdiv := (isNearest_div hfin c.bpm.finite c.bpm.pos).defined
  have hle := div_nonpos hle c.bpm.pos c.bpm.finite hdiv
  have hge := div_nonneg hge c.bpm.pos c.bpm.finite hdiv
  have hmul := (isNearest_mul (isFinite_of_le hge hle rfl) BpmChange.isFinite_sixty).defined
  exact beq_iff_le.2 ⟨mul_nonpos hle BpmChange.nonneg_sixty BpmChange.isFinite_sixty hmul,
    mul_nonneg hge BpmChange.nonneg_sixty BpmChange.isFinite_sixty hmul⟩

/-- Over no distance the seconds stay numerically the same. -/
theorem advance_zero_of_defined {c : BpmChange Float} {v d : Float} (hd : (d == 0) = true)
    (hdef : (Rate.advance c v d).isNaN = false) : (Rate.advance c v d == v) = true := by
  obtain ⟨hle, hge⟩ := beq_iff_le.1 (duration_beq_zero c hd)
  exact beq_iff_le.2 ⟨add_le_of_nonpos hle hdef, le_add_of_nonneg hge hdef⟩

theorem advance_zero (c : BpmChange Float) {v d : Float} (hv : v.isFinite = true)
    (hd : (d == 0) = true) : (Rate.advance c v d == v) = true := by
  obtain ⟨hle, hge⟩ := beq_iff_le.1 (duration_beq_zero c hd)
  exact advance_zero_of_defined hd (isNearest_add hv (isFinite_of_le hge hle rfl)).defined

section Defined

variable (h : ofChanges? cs waveOffset = some t) {i : Nat} (hi : i < t.knots.size)
  (hdef : t.knots[i].value.isNaN = false)

include h hdef

/-- If the seconds of a change are defined, so are those of the changes before it. -/
theorem isNaN_value {j : Nat} (hji : j ≤ i) : t.knots[j].value.isNaN = false := by
  induction i, hji using Nat.le_induction with
  | base => exact hdef
  | succ i hji ih =>
    rw [(linked_ofChanges? h).next i hi] at hdef
    exact ih (by omega) ((BpmChange.ascending _).defined hdef).1

/-- Up to a change whose seconds are defined, changes are sorted by their beats. -/
theorem position_le_position {j k : Nat} (hjk : j ≤ k) (hki : k ≤ i) :
    t.knots[j].position ≤ t.knots[k].position := by
  have hdef' (l : Nat) (hl : l ≤ i) : t.knots[l].position.isNaN = false :=
    isNaN_position h _ (isNaN_value h hi hdef hl)
  rcases Nat.eq_or_lt_of_le hjk with rfl | hlt
  · exact le_refl_iff.2 (hdef' j hki)
  · exact le_of_rank_le (hdef' j (by omega)) (hdef' k hki) (rank_le_rank h hlt (by omega))

/-- Changes on one beat have the same seconds. -/
theorem value_beq_value (hfin : t.knots[i].position.isFinite = true) {j : Nat} (hji : j ≤ i)
    (hle : t.knots[i].position ≤ t.knots[j].position) :
    (t.knots[i].value == t.knots[j].value) = true := by
  -- All changes from `j` to `i` are on the beat.
  have hon (k : Nat) (hjk : j ≤ k) (hki : k ≤ i) :
      (t.knots[k].position == t.knots[i].position) = true :=
    beq_iff_le.2 ⟨position_le_position h hi hdef hki (Nat.le_refl i),
      le_trans hle (position_le_position h hi hdef hjk hki)⟩
  suffices ∀ k (_ : j ≤ k) (_ : k ≤ i), (t.knots[k].value == t.knots[j].value) = true from
    this i hji (Nat.le_refl i)
  intro k hjk hki
  induction k, hjk using Nat.le_induction with
  | base =>
    have hrefl := le_refl_iff.2 (isNaN_value h hi hdef hki)
    exact beq_iff_le.2 ⟨hrefl, hrefl⟩
  | succ k hjk ih =>
    have hzero : (t.knots[k + 1].position - t.knots[k].position == 0) = true := by
      have hk := hon k hjk (by omega)
      refine sub_beq_zero (isFinite_of_beq hfin (beq_symm hk)) ?_
      exact beq_trans hk (beq_symm (hon (k + 1) (by omega) hki))
    have hnext := isNaN_value h hi hdef hki
    rw [(linked_ofChanges? h).next k (by omega)] at hnext ⊢
    exact beq_trans (advance_zero_of_defined hzero hnext) (ih (by omega))

end Defined

section AllDefined

variable (h : ofChanges? cs waveOffset = some t)
  (hdef : ∀ i (_ : i < t.knots.size), t.knots[i].value.isNaN = false)

include h hdef

theorem chained : t.Chained (-waveOffset) where
  toLinked := linked_ofChanges? h
  sorted _ j hij hj := position_le_position h hj (hdef j hj) hij (Nat.le_refl j)
  ascending _ _ := BpmChange.ascending _
  defined := hdef

/-- Seconds do not fall from one beat to a later one. -/
theorem seconds_le_seconds (hfin : waveOffset.isFinite = true) (hpq : p ≤ q)
    (hp : (t.seconds p).isNaN = false) (hq : (t.seconds q).isNaN = false) :
    t.seconds p ≤ t.seconds q := by
  have horigin := isNaN_of_isFinite (isFinite_neg hfin)
  rw [seconds, waveOffset_ofChanges? h] at hp hq
  rw [seconds, seconds, waveOffset_ofChanges? h]
  exact (chained h hdef).valueAt_le horigin hpq hp hq

end AllDefined

/-- If a change is not before a beat, no change after it is. -/
theorem not_position_lt (h : ofChanges? cs waveOffset = some t) {n : Nat} {beat : Float}
    {hn : n < t.knots.size} (hbeat : beat ≤ t.knots[n].position) {i : Nat} (hi : i < t.knots.size)
    (hni : n ≤ i) : ¬ t.knots[i].position < beat := by
  intro hlt
  obtain ⟨-, hdef, -⟩ := le_iff.1 hbeat
  obtain ⟨hdef', -, -⟩ := lt_iff.1 hlt
  have hle : t.knots[n].position ≤ t.knots[i].position := by
    rcases Nat.eq_or_lt_of_le hni with rfl | hni'
    · exact le_refl_iff.2 hdef
    · exact le_of_rank_le hdef hdef' (rank_le_rank h hni' hi)
  exact not_lt_of_le (le_trans hbeat hle) hlt

/-- The beat zero is at the origin, unless some change is before it. -/
theorem seconds_zero (h : ofChanges? cs waveOffset = some t) (hfin : waveOffset.isFinite = true)
    (hfirst : 0 ≤ t.first.position) : (t.seconds 0 == -waveOffset) = true := by
  have horigin := isFinite_neg hfin
  rw [seconds, waveOffset_ofChanges? h]
  by_cases hlt : 0 < t.first.position
  · rw [Timeline.valueAt, if_pos hlt]
    exact advance_zero _ horigin rfl
  · have hzero : (t.first.position == 0) = true :=
      beq_iff_le.2 ⟨le_of_not_lt (le_iff.1 hfirst).2.1 rfl hlt, hfirst⟩
    have hvalue : t.valueAt (-waveOffset) 0 = t.first.value :=
      Timeline.valueAt_eq_value t.nonempty hzero (fun j _ hj => absurd hj (Nat.not_lt_zero j))
        fun j => not_position_lt h hfirst
    rw [hvalue, (linked_ofChanges? h).first]
    exact advance_zero _ horigin hzero

end BpmTimeline

end RhythmChart
