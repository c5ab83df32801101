import RhythmChart.Chart
import RhythmChart.Proofs.Slides.Forward

/-!
# Decoding slot by slot

An object has the digits of its slot, and its time is the fraction of the track that the number of the slot
says, in lowest terms (`Slot.ObjectAt`).  No slot that has digits is rejected, neither for its time nor for
the name of a BPM definition that it writes (`Slot.decode_exact`).
-/

namespace RhythmChart

namespace SlotTime

variable {s t : SlotTime}

theorem share_lt_one (t : SlotTime) : t.share < 1 := (div_lt_one t.denominator_pos).2 (Nat.cast_lt.2 t.lt)

/-- Without rounding, a time is in its track. -/
theorem measure_mem_track (t : SlotTime) :
    (t.track.number : ℚ) ≤ t.measure ∧ (t.measure : ℚ) < t.track.number + 1 := by
  rw [measure_eq_share]
  exact ⟨le_add_of_nonneg_right t.share_nonneg, add_lt_add_right t.share_lt_one _⟩

/-- Of two times in one track, the later one is at the greater position. -/
theorem measure_lt_measure (htrack : s.track = t.track) (h : compare s t = .lt) :
    (s.measure : ℚ) < t.measure := by
  change (compare s.track t.track).then _ = .lt at h
  rw [htrack, Std.ReflOrd.compare_self, Ordering.eq_then, Nat.compare_eq_lt] at h
  rw [measure_eq_share, measure_eq_share, htrack]
  refine add_lt_add_right ?_ _
  exact (div_lt_div_iff₀ s.denominator_pos t.denominator_pos).2 (by exact_mod_cast h)

theorem measure_ofSlot (track : Track) {n : ℕ} (i : Fin n) :
    ((ofSlot track i).measure : ℚ) = track.number + (i.val : ℚ) / n := by
  obtain ⟨-, hcross⟩ := eq_and_cross_of_of? (of?_eq_some_iff.2 ⟨i.isLt, rfl⟩ : of? track i n = _)
  have hn : (n : ℚ) ≠ 0 := Nat.cast_ne_zero.2 (Nat.ne_of_gt i.pos)
  have hcross' : ((ofSlot track i).numerator : ℚ) * n = i.val * (ofSlot track i).denominator := by
    exact_mod_cast hcross
  rw [measure_eq_share, share, (div_eq_div_iff (denominator_pos _).ne' hn).2 hcross']
  rfl

end SlotTime

namespace Slot

variable {α : Type} [Scalar α]

omit [Scalar α] in
theorem value_le (s : Slot α) : s.value ≤ 1295 := by
  have := s.high.isLt
  have := s.low.isLt
  unfold value
  omega

/-- The object is that of the slot `i`: it has the digits of the slot, it is at the fraction of the track
that the number of the slot says, in lowest terms, so before the next track, and its beat is that of its
time. -/
structure ObjectAt (measures : MeasureTimeline α) (track : Track) (payload : List Char) (s : Slot α)
    (i : ℕ) : Prop where
  sounds : Sounds payload i (s.high, s.low)
  track_eq : s.time.track = track
  numerator_eq : s.time.numerator = i / i.gcd (payload.length / 2)
  denominator_eq : s.time.denominator = payload.length / 2 / i.gcd (payload.length / 2)
  measure_eq : (s.time.measure : ℚ) = track.number + (i : ℚ) / (payload.length / 2 : ℕ)
  le_measure : (track.number : ℚ) ≤ s.time.measure
  measure_lt : (s.time.measure : ℚ) < track.number + 1
  beat_eq : s.beat = measures.beat s.time.measure
  value_le : s.value ≤ 1295

variable {measures : MeasureTimeline α} {track : Track} {payload : List Char} {i : ℕ}

theorem WrittenAt.objectAt {s : Slot α} (h : WrittenAt measures track payload i s) :
    ObjectAt measures track payload s i := by
  obtain ⟨sounds, ⟨hi, htime⟩, beat⟩ := h
  have hmem := s.time.measure_mem_track
  have hmeasure := SlotTime.measure_ofSlot track ⟨i, hi⟩
  rw [← htime] at hmeasure
  have htrack : s.time.track = track := congrArg SlotTime.track htime
  rw [htrack] at hmem
  exact ⟨sounds, htrack, congrArg SlotTime.numerator htime, congrArg SlotTime.denominator htime, hmeasure,
    hmem.1, hmem.2, beat, s.value_le⟩

theorem objectAt_decode (measures : MeasureTimeline α) (track : Track) (payload : List Char) :
    List.Forall₂ (ObjectAt measures track payload) (decode measures track payload) (sounding payload) :=
  (forall₂_decode measures track payload).imp fun _ _ written => written.objectAt

theorem exists_objectAt {s : Slot α} (h : s ∈ decode measures track payload) :
    ∃ i, ObjectAt measures track payload s i := by
  obtain ⟨i, written⟩ := mem_decode.1 h
  exact ⟨i, written.objectAt⟩

omit [Scalar α] in
/-- The value of an object is always the number of a name. -/
theorem ofNat?_value (s : Slot α) : BpmId.ofNat? s.value = some s.bpmId := by
  rw [BpmId.ofNat?, dif_pos (Nat.lt_succ_of_le s.value_le)]
  rfl

omit [Scalar α] in
/-- No object of a message on the BPM channel is left out for its name. -/
theorem placementsOf_eq_filterMap (span : Span) (slots : List (Slot α)) :
    Chart.placementsOf span slots = slots.filterMap fun s =>
      (BpmId.ofNat? s.value).map fun id => ⟨id, ⟨s.time, s.beat⟩, span⟩ := by
  rw [Chart.placementsOf, ← List.filterMap_eq_map]
  refine List.filterMap_congr fun s _ => ?_
  rw [ofNat?_value]
  rfl

/-- The objects of a payload are those of the slots that write one, one from each in order, and each is
placed by the number of its slot.  They come one after the other in their track, and on the BPM channel each
of them is a placement. -/
theorem decode_exact (measures : MeasureTimeline α) (track : Track) (payload : List Char) :
    List.Forall₂ (ObjectAt measures track payload) (decode measures track payload) (sounding payload) ∧
    ((decode measures track payload).Pairwise fun s t =>
      compare s.time t.time = .lt ∧ (s.time.measure : ℚ) < t.time.measure) ∧
    ∀ span, Chart.placementsOf span (decode measures track payload) =
      (decode measures track payload).filterMap fun s =>
        (BpmId.ofNat? s.value).map fun id => ⟨id, ⟨s.time, s.beat⟩, span⟩ := by
  refine ⟨objectAt_decode measures track payload, ?_, fun span => placementsOf_eq_filterMap span _⟩
  refine (pairwise_decode measures track payload).imp_of_mem fun {s t} hs ht hlt => ⟨hlt, ?_⟩
  obtain ⟨i, hobject⟩ := exists_objectAt hs
  obtain ⟨j, hobject'⟩ := exists_objectAt ht
  exact SlotTime.measure_lt_measure (hobject.track_eq.trans hobject'.track_eq.symm) hlt

-- A unit that is no number, a silent one and a character too many: the others keep their numbers.
example : sounding "01-2Zz00A".toList = [0, 2] := by
  decide +kernel

end Slot

end RhythmChart
