import RhythmChart.Proofs.Chronology

/-!
# Where the beat zero is

The beat zero is at the negative wave offset, provided that no change of tempo is before it.  So it is if
no measure has less than no beats, because then all placements are at the beat zero or later
(`read_seconds_zero`).

With negative beats of a measure a change can be before the beat zero.  The first change is still reached
from the origin by its own tempo, but the beat zero is then reached from it through all changes between,
and the two ways differ (`read_seconds_zero_ne`).
-/

namespace RhythmChart

open Binary64

namespace Chart

open Token

section Changes

variable {α : Type} [Scalar α] {prompter : Prompter α} {ts : List (Spanned (Token α))} {r : Rulings α}
  {defs : List (Definition α)} {chart : Chart α}

theorem exists_slot_of_mem_placements {measures : MeasureTimeline α} {ts : List (Spanned (Token α))}
    {d : Declaration BpmId (Placement α)} (h : d ∈ placements measures ts) :
    ∃ s ∈ slots measures ts, d.value.beat = s.beat := by
  rw [placements_eq_flatMap] at h
  obtain ⟨⟨content, span⟩, hmem, hd⟩ := List.mem_flatMap.1 h
  split at hd
  · next track payload heq =>
    cases heq
    obtain ⟨s, hs, rfl⟩ := List.mem_map.1 hd
    exact ⟨s, mem_slots_iff.2 ⟨track, _, payload, span, hmem, hs⟩, rfl⟩
  · cases hd

/-- A change of tempo is at the beat zero or at that of a slot. -/
theorem MadeOf.beat_of_mem_changes (m : MadeOf prompter ts r defs chart) {c : BpmChange α}
    (hc : c ∈ chart.song.changes) :
    c.beat = ((0 : Nat) : α) ∨ ∃ s ∈ slots chart.song.measures ts, c.beat = s.beat := by
  cases hplaced : (keptAfter r.placements).isEmpty with
  | true =>
    left
    obtain ⟨d, rest, rfl⟩ := List.exists_cons_of_ne_nil m.defs_ne_nil
    rw [m.perm_changes.mem_iff, tempoChanges_of_unplaced rest _ hplaced d, List.mem_singleton] at hc
    rw [hc]
    rfl
  | false =>
    right
    obtain ⟨p, hp, -, hbeat⟩ := (m.isKept_of_mem hplaced hc).placement
    have settled := m.course.placementsSettled
    have hdeclared := settled.ruled.grounded.declared _ _ hp
    rw [settled.complete] at hdeclared
    obtain ⟨s, hs, heq⟩ := exists_slot_of_mem_placements hdeclared
    rw [m.measures]
    exact ⟨s, hs, hbeat.trans heq⟩

end Changes

section Rounded

variable {prompter : Prompter Float} {ts : List (Spanned (Token Float))} {r : Rulings Float}
  {defs : List (Definition Float)} {chart : Chart Float}

/-- If no measure has less than no beats, no change of tempo is before the beat zero. -/
theorem MadeOf.first_nonneg (m : MadeOf prompter ts r defs chart) (hts : ∀ t ∈ ts, t.content.Bounded)
    (hrates : ∀ a ∈ chart.song.measureAnchors, 0 ≤ a.beats.val)
    (hexact : ∀ s ∈ slots chart.song.measures ts, s.time.Exact) :
    0 ≤ chart.song.tempo.first.position := by
  have hfirst : chart.song.tempo.first.change ∈ chart.song.changes :=
    Timeline.change_mem chart.song.tempo.nonempty
  change 0 ≤ chart.song.tempo.first.change.beat
  rcases m.beat_of_mem_changes hfirst with hzero | ⟨s, hs, hbeat⟩
  · rw [hzero]
    decide
  · have hnumber := number_lt_of_mem_slots hts hs
    rw [hbeat, beat_of_mem_slots hs]
    exact (m.onward hts hrates).beat_nonneg (SlotTime.measure_nonneg (hexact s hs) hnumber)
      (SlotTime.isFinite_measure (hexact s hs) hnumber)

end Rounded

/-- The beat zero is at the negative wave offset if no change of tempo is before it, and so it is if no
measure has less than no beats. -/
theorem read_seconds_zero (prompter : Prompter Float) (source : List Char) {chart : Chart Float}
    (h : (read prompter source).result = .ok chart) :
    (0 ≤ chart.song.tempo.first.position →
      (chart.song.tempo.seconds 0 == -chart.song.info.waveOffset) = true) ∧
    (source.length ≤ 2 ^ 54 → (∀ a ∈ chart.song.measureAnchors, 0 ≤ a.beats.val) →
      (chart.song.tempo.seconds 0 == -chart.song.info.waveOffset) = true) := by
  obtain ⟨ts, hscan, hok⟩ := read_eq_ok_iff.1 h
  obtain ⟨r, defs, m⟩ := exists_madeOf hok
  have hzero (hfirst : 0 ≤ chart.song.tempo.first.position) :
      (chart.song.tempo.seconds 0 == -chart.song.info.waveOffset) = true := by
    rw [m.info]
    exact BpmTimeline.seconds_zero m.tempo (isFinite_waveOffset ts) hfirst
  refine ⟨hzero, fun hlength hrates => hzero ?_⟩
  exact m.first_nonneg (fun t ht => bounded_of_scan hscan ht) hrates
    fun s hs => exact_of_mem_slots hscan hlength hs

/-- A change of tempo in the middle of the first measure, and a wave offset. -/
theorem read_seconds_zero_of_late_change :
    ∃ chart, (read (Prompter.always .halt) "#WAVEOFFSET 1.5\n#BPM01: 90\n#00008:0001".toList).result =
        .ok chart ∧ (chart.song.tempo.seconds 0 == -chart.song.info.waveOffset) = true := by
  obtain ⟨ts, chart, -, hok, hcheck⟩ := exists_read_of_check (Prompter.always .halt)
    "#WAVEOFFSET 1.5\n#BPM01: 90\n#00008:0001".toList
    (fun _ chart => decide (0 ≤ chart.song.tempo.first.position))
    (by
      unfold ofTokens resolve assembleSong BpmTimeline.ofChanges?
      rw [scan_eq_mapM, BpmTimeline.sort_eq_insertionSort]
      decide +kernel)
  exact ⟨chart, hok, (read_seconds_zero _ _ hok).1 (of_decide_eq_true hcheck)⟩

/-- With minus four beats in a measure, the measures one and two are at the beats minus four and minus
eight.  The beat zero comes out at plus one second, with a wave offset of one second. -/
theorem read_seconds_zero_ne :
    ∃ chart, (read (Prompter.always .halt)
        "#WAVEOFFSET 1\n#00002:-4\n#BPM01:60\n#BPM02:120\n#00108:01\n#00208:02\n".toList).result =
          .ok chart ∧
      (chart.song.tempo.seconds 0 == 1) = true ∧ (-chart.song.info.waveOffset == -1) = true ∧
      ¬ (chart.song.tempo.seconds 0 == -chart.song.info.waveOffset) = true := by
  obtain ⟨ts, chart, -, hok, hcheck⟩ := exists_read_of_check (Prompter.always .halt)
    "#WAVEOFFSET 1\n#00002:-4\n#BPM01:60\n#BPM02:120\n#00108:01\n#00208:02\n".toList
    (fun _ chart => chart.song.tempo.seconds 0 == 1 && -chart.song.info.waveOffset == -1 &&
      !(chart.song.tempo.seconds 0 == -chart.song.info.waveOffset))
    (by
      unfold ofTokens resolve assembleSong BpmTimeline.ofChanges?
      rw [scan_eq_mapM, BpmTimeline.sort_eq_insertionSort]
      decide +kernel)
  simp only [Bool.and_eq_true, Bool.not_eq_true'] at hcheck
  obtain ⟨⟨hseconds, hoffset⟩, hne⟩ := hcheck
  exact ⟨chart, hok, hseconds, hoffset, Bool.eq_false_iff.1 hne⟩

end Chart

end RhythmChart
