import RhythmChart.Proofs.Definitions
import RhythmChart.Proofs.Scalar.Naturals
import RhythmChart.Proofs.Slides.Emission
import RhythmChart.Proofs.Source.Bounds

/-!
# Well-formed songs

What a text makes is well-formed: measures and changes of tempo are in order and there is at least one of
each, seconds are those that the tempo gives to the beats, and lanes, widths and channels are digits
(`read_wellFormed`).
-/

namespace RhythmChart

/-! ## Orders -/

/-- The change comes before another one: at an earlier beat in the total order of numbers, or at the same
beat and with the lower name. -/
def BpmChange.Before (a b : BpmChange Float) : Prop :=
  Binary64.Precedes a.beat b.beat ∨ a.beat.toBits = b.beat.toBits ∧ a.id.value < b.id.value

/-- Changes that come in the order of their names are sorted by beat, then by name. -/
theorem SortedFrom.pairwise_before {cs cs' : List (BpmChange Float)}
    (h : SortedFrom BpmChange.beat cs cs')
    (hnames : (cs.map BpmChange.id).Pairwise fun a b => a.value < b.value) :
    cs'.Pairwise BpmChange.Before := by
  refine (h.pairwise (List.pairwise_map.1 hnames)).imp fun {a b} hab => ?_
  have hle : Binary64.rank a.beat ≤ Binary64.rank b.beat := of_decide_eq_true hab.1
  rcases Int.lt_or_eq_of_le hle with hlt | heq
  · exact .inl (Binary64.rank_lt_rank_iff.1 hlt)
  · exact .inr ⟨Binary64.rank_eq_rank_iff.1 heq, hab.2 (decide_eq_true (Int.le_of_eq heq.symm))⟩

namespace Song

variable (s : Song Float)

theorem pairwise_measureAnchors {R : Float → Float → Prop}
    (h : (s.measures.knots.toList.map Knot.change).Pairwise fun a b => R a.measure b.measure) :
    s.measureAnchors.Pairwise fun a b => R a.measure b.measure := by
  rw [← s.map_change_measureAnchors, List.pairwise_map] at h
  exact h

end Song

theorem Timeline.knots_ne_nil {ρ α : Type} (t : Timeline ρ α) : t.knots.toList ≠ [] := by
  apply List.ne_nil_of_length_pos
  exact t.nonempty

/-- The changes of measures ascend if the tracks have three digits. -/
theorem Chart.pairwise_measureTimeline {kept : Kept Track (Finite Float)}
    (h : ∀ track ∈ kept, track.number < 1000) :
    ((measureTimeline kept).knots.toList.map Knot.change).Pairwise fun a b => a.measure < b.measure := by
  rw [changes_measureTimeline]
  split
  · exact List.pairwise_singleton _ _
  · rw [measureChanges, List.pairwise_map]
    refine Std.TreeMap.ordered_keys_toList.imp_of_mem fun {a b} _ hb hab => ?_
    have hmem : b.1 ∈ kept :=
      (Std.TreeMap.getElem?_eq_some_iff.1 (Std.TreeMap.mem_toList_iff_getElem?_eq_some.1 hb)).1
    exact Binary64.ofNat_lt_ofNat (Nat.compare_eq_lt.1 hab) (Nat.lt_trans (h _ hmem) (by decide))

/-! ## Notes -/

/-- Lane and width are digits. -/
def Mark.Bounded {α : Type} (m : Mark α) : Prop := m.lane ≤ 35 ∧ m.width ≤ 35

/-- Lanes, widths and the channel are digits. -/
def Note.Bounded : Note (Mark Float) → Prop
  | .tap m => m.Bounded
  | .slide channel m m' => channel ≤ 35 ∧ m.Bounded ∧ m'.Bounded

/-- All points of the note have the seconds of their beats. -/
def Note.Placed (tempo : BpmTimeline Float) : Note (Point Float) → Prop
  | .tap p => p.seconds = tempo.seconds p.beat
  | .slide _ p q => p.seconds = tempo.seconds p.beat ∧ q.seconds = tempo.seconds q.beat

theorem Slot.bounded_mark {lane : Nat} (h : lane < 36) (s : Slot Float) :
    (⟨lane, s.low.val, s.beat⟩ : Mark Float).Bounded :=
  ⟨Nat.le_of_lt_succ h, Nat.le_of_lt_succ s.low.isLt⟩

section Lines

variable {measures : MeasureTimeline Float} {ts : List (Spanned (Token Float))}
  (hts : ∀ t ∈ ts, t.content.Bounded)

include hts

theorem bounded_of_mem_edgesOn {channel : Nat} {x : SlideEdge Float}
    (h : x ∈ edgesOn channel (Token.laneLines measures ts)) : channel ≤ 35 ∧ x.mark.Bounded := by
  obtain ⟨slots, hline, -⟩ := exists_slides_of_mem_edgesOn h
  obtain ⟨track, payload, hmem, -⟩ := Token.slides_mem_laneLines_iff.1 hline
  obtain ⟨-, hlane, hchannel⟩ := hts _ hmem
  exact ⟨Nat.le_of_lt_succ hchannel, x.slot.bounded_mark hlane⟩

theorem bounded_of_mem_notes {n : Note (Mark Float)}
    (h : n ∈ (assemble (Token.laneLines measures ts)).notes) : n.Bounded := by
  rcases mem_assemble_notes h with ⟨lane, slots, hline, s, -, rfl⟩ | ⟨c, x, y, hxy, rfl⟩
  · obtain ⟨track, payload, span, hmem, -⟩ := Token.taps_mem_laneLines_iff.1 hline
    exact s.bounded_mark (hts _ hmem).2
  · obtain ⟨hc, hx⟩ := bounded_of_mem_edgesOn hts hxy.start_mem
    exact ⟨hc, hx, (bounded_of_mem_edgesOn hts hxy.stop_mem).2⟩

end Lines

/-! ## Songs -/

structure Song.WellFormed (s : Song Float) : Prop where
  measures_nonempty : s.measureAnchors ≠ []
  measures_ascending : s.measureAnchors.Pairwise fun a b => a.measure < b.measure
  changes_nonempty : s.changes ≠ []
  changes_positive : ∀ c ∈ s.changes, 0 < c.bpm.val
  changes_ascending : s.changes.Pairwise BpmChange.Before
  names_once : (s.changes.map BpmChange.id).Nodup
  waveOffset_eq : s.tempo.waveOffset = s.info.waveOffset
  measures_placed : ∀ a ∈ s.measureAnchors, a.seconds = s.tempo.seconds a.beat
  notes_placed : ∀ n ∈ s.notes.toList, n.Placed s.tempo
  notes_bounded : ∀ n ∈ s.notes.toList, (n.map Point.toMark).Bounded

namespace Chart

open Token

/-- A text is accepted if its tokens are. -/
theorem read_eq_ok_iff {prompter : Prompter Float} {source : List Char} {chart : Chart Float} :
    (read prompter source).result = .ok chart ↔
      ∃ ts, scan source = .ok ts ∧ (ofTokens prompter ts).result = .ok chart := by
  unfold read
  cases hscan : scan source with
  | error e => exact iff_of_false (by rintro ⟨⟩) (by rintro ⟨ts, ⟨⟩, -⟩)
  | ok ts =>
    cases hresult : (ofTokens prompter ts).result with
    | error e => simp [hresult, Except.mapError]
    | ok chart => simp [hresult, Except.mapError]

namespace MadeOf

variable {prompter : Prompter Float} {ts : List (Spanned (Token Float))} {r : Rulings Float}
  {defs : List (Definition Float)} {chart : Chart Float}

theorem sortedFrom_changes (m : MadeOf prompter ts r defs chart) :
    SortedFrom BpmChange.beat (tempoChanges defs (keptAfter r.placements)).1 chart.song.changes :=
  BpmTimeline.sortedFrom_ofChanges? m.tempo

theorem pairwise_changeNames (m : MadeOf prompter ts r defs chart) :
    ((tempoChanges defs (keptAfter r.placements)).1.map BpmChange.id).Pairwise
      fun a b => a.value < b.value :=
  m.pairwise_names.sublist (changeNames_sublist defs (keptAfter r.placements))

/-- The tracks kept are those of declarations. -/
theorem number_lt (m : MadeOf prompter ts r defs chart) (hts : ∀ t ∈ ts, t.content.Bounded)
    {track : Track} (h : track ∈ keptAfter r.beats) : track.number < 1000 := by
  have settled := m.course.definitionsSettled.beats
  rw [settled.ruled.grounded.mem_iff, settled.complete] at h
  obtain ⟨d, hd, rfl⟩ := h
  exact hts _ (mem_beatsDeclarations_iff.1 hd)

/-- Each note is one of those assembled, at the seconds of its beats. -/
theorem exists_of_mem_notes (m : MadeOf prompter ts r defs chart) {n : Note (Point Float)}
    (h : n ∈ chart.song.notes.toList) :
    n.map Point.toMark ∈ (assemble (laneLines r.measures ts)).notes ∧ n.Placed chart.song.tempo := by
  rw [m.notes, placeNotes, List.mem_mergeSort] at h
  obtain ⟨n, hn, rfl⟩ := List.mem_map.1 h
  cases n with
  | tap mark => exact ⟨hn, rfl⟩
  | slide channel start stop => exact ⟨hn, rfl, rfl⟩

theorem wellFormed (m : MadeOf prompter ts r defs chart) (hts : ∀ t ∈ ts, t.content.Bounded) :
    chart.song.WellFormed where
  measures_nonempty := by
    rw [m.measureAnchors_eq, Ne, List.map_eq_nil_iff]
    exact r.measures.knots_ne_nil
  measures_ascending := by
    apply Song.pairwise_measureAnchors
    rw [m.measures]
    exact pairwise_measureTimeline fun track htrack => m.number_lt hts htrack
  changes_nonempty := m.changes_ne_nil
  changes_positive c _ := c.bpm.pos
  changes_ascending := m.sortedFrom_changes.pairwise_before m.pairwise_changeNames
  names_once := by
    refine (m.perm_changes.map _).nodup_iff.2 (m.pairwise_changeNames.imp fun hlt heq => ?_)
    rw [heq] at hlt
    exact Nat.lt_irrefl _ hlt
  waveOffset_eq := by rw [m.info, BpmTimeline.waveOffset_ofChanges? m.tempo]
  measures_placed a ha := by
    rw [m.measureAnchors_eq] at ha
    obtain ⟨k, -, rfl⟩ := List.mem_map.1 ha
    rfl
  notes_placed n hn := (m.exists_of_mem_notes hn).2
  notes_bounded n hn := bounded_of_mem_notes hts (m.exists_of_mem_notes hn).1

end MadeOf

/-- What a text makes is well-formed: its measures and its changes of tempo are in order, its seconds are
those of its beats, and its lanes, widths and channels are digits. -/
theorem read_wellFormed (prompter : Prompter Float) (source : List Char) {chart : Chart Float}
    (h : (read prompter source).result = .ok chart) : chart.song.WellFormed := by
  obtain ⟨ts, hscan, hok⟩ := read_eq_ok_iff.1 h
  obtain ⟨r, defs, m⟩ := exists_madeOf hok
  exact m.wellFormed fun t ht => bounded_of_scan hscan ht

/-- Three beats in the first measure and four in the others, and a slide. -/
theorem read_wellFormed_of_slide :
    ∃ chart, (read (Prompter.always .halt)
        "#BPM02: 90\n#00002: 3\n#00102: 4\n#00008:02\n#0003z0:1424".toList).result = .ok chart ∧
      chart.song.WellFormed := by
  obtain ⟨chart, hok⟩ : ∃ chart, (read (Prompter.always .halt)
      "#BPM02: 90\n#00002: 3\n#00102: 4\n#00008:02\n#0003z0:1424".toList).result = .ok chart := by
    apply exists_eq_ok_of_isOk
    rw [read, scan_eq_mapM]
    decide +kernel
  exact ⟨chart, hok, read_wellFormed _ _ hok⟩

end Chart

end RhythmChart
