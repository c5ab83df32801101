import RhythmChart.Proofs.Scalar.Signs
import RhythmChart.Proofs.Timeline.Rounded

/-!
# No negative zeros on timelines

From zero on, no beat is the negative zero (`MeasureTimeline.Onward.unsigned_beat`), because a beat is a sum
whose first summand is none.  From beats without a minus sign no seconds are the negative zero
(`BpmTimeline.not_isMinusZero_seconds`), because seconds are a sum whose second summand is none.  So the order
of seconds is the total order, by which songs sort their notes.
-/

namespace RhythmChart

open Binary64

/-! ## From measures to beats -/

theorem MeasureChange.not_isMinusZero_advance (c : MeasureChange Float) {beat : Float} (d : Float)
    (h : ¬ IsMinusZero beat) : ¬ IsMinusZero (Rate.advance c beat d) :=
  fun hzero => h (isMinusZero_of_add hzero).1

namespace MeasureTimeline.Onward

variable {t : MeasureTimeline Float} (h : t.Onward) {p : Float}

include h

theorem not_isMinusZero_value {i : Nat} (hi : i < t.knots.size) : ¬ IsMinusZero t.knots[i].value := by
  induction i with
  | zero =>
    have hfirst : t.knots[0].value = _ := h.first
    rw [hfirst]
    exact MeasureChange.not_isMinusZero_advance _ _ nofun
  | succ i ih =>
    rw [h.next i hi]
    exact MeasureChange.not_isMinusZero_advance _ _ (ih (by omega))

/-- From the measure zero on, beats have no minus sign. -/
theorem unsigned_beat (hp : 0 ≤ p) (hfin : p.isFinite = true) : Unsigned (t.beat p).toModel.unpack := by
  refine unsigned_of_nonneg (h.beat_nonneg hp hfin) ?_
  have hbranch : t.Branch 0 p (t.beat p) := h.sorted.branch_valueAt (isNaN_of_isFinite hfin)
  generalize t.beat p = v at hbranch
  cases hbranch with
  | before => exact MeasureChange.not_isMinusZero_advance _ _ nofun
  | on i hi => exact h.not_isMinusZero_value hi
  | after i hi => exact MeasureChange.not_isMinusZero_advance _ _ (h.not_isMinusZero_value hi)

end MeasureTimeline.Onward

/-! ## From beats to seconds -/

theorem BpmChange.not_isMinusZero_advance (c : BpmChange Float) (seconds : Float) {d : Float}
    (h : Unsigned d.toModel.unpack) : ¬ IsMinusZero (Rate.advance c seconds d) := by
  have hbpm : Unsigned c.bpm.val.toModel.unpack := by
    obtain ⟨m, e, hm, hunpack⟩ := exists_unpack_eq c.bpm.finite c.bpm.pos
    rw [hunpack]
    exact .finite m e hm
  have hdiv : Unsigned (d / c.bpm.val).toModel.unpack := by
    rw [unpack_div]
    exact (h.div hbpm).repack
  have hsixty : Unsigned ((60 : Nat) : Float).toModel.unpack := unsigned_of_nonneg (by decide) nofun
  have hmul : Unsigned (d / c.bpm.val * ((60 : Nat) : Float)).toModel.unpack := by
    rw [unpack_mul]
    exact (hdiv.mul hsixty).repack
  exact fun hzero => hmul.not_isMinusZero (isMinusZero_of_add hzero).2

namespace BpmTimeline

variable {cs : List (BpmChange Float)} {waveOffset : Float} {t : BpmTimeline Float}
  (h : ofChanges? cs waveOffset = some t)
  (hdef : ∀ i (_ : i < t.knots.size), t.knots[i].value.isNaN = false)
  (hpositions : ∀ i (_ : i < t.knots.size), Unsigned t.knots[i].position.toModel.unpack)

include h hdef hpositions

theorem not_isMinusZero_value {i : Nat} (hi : i < t.knots.size) : ¬ IsMinusZero t.knots[i].value := by
  have hchained := chained h hdef
  cases i with
  | zero =>
    have hfirst : t.knots[0].value = _ := hchained.first
    rw [hfirst]
    exact BpmChange.not_isMinusZero_advance _ _ (hpositions 0 hi)
  | succ i =>
    rw [hchained.next i hi]
    exact BpmChange.not_isMinusZero_advance _ _
      (unsigned_sub (hpositions (i + 1) hi) (hchained.sorted i (i + 1) (by omega) hi))

/-- At a beat without a minus sign the seconds are not the negative zero. -/
theorem not_isMinusZero_seconds {p : Float} (hp : p.isNaN = false) (hunsigned : Unsigned p.toModel.unpack) :
    ¬ IsMinusZero (t.seconds p) := by
  have hchained := chained h hdef
  have hbranch : t.Branch (-t.waveOffset) p (t.seconds p) := hchained.sorted.branch_valueAt hp
  generalize t.seconds p = v at hbranch
  cases hbranch with
  | before => exact BpmChange.not_isMinusZero_advance _ _ hunsigned
  | on i hi => exact not_isMinusZero_value h hdef hpositions hi
  | after i hi lt => exact BpmChange.not_isMinusZero_advance _ _ (unsigned_sub hunsigned (le_of_lt lt))

end BpmTimeline

end RhythmChart
