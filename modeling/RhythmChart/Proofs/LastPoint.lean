import RhythmChart.Proofs.Origin
import RhythmChart.Proofs.Slides.Forward
import RhythmChart.Proofs.Timeline.Signs

/-!
# The last point of a song

The last time of a song is the greatest of the seconds at which its notes are over.  It is the time of the
last point exactly if no note begins later than that (`Song.isLast_iff`).  So it is if no slide ends before
its start on the chart, no measure has less than no beats and no number on the way is undefined
(`read_lastTime`).

The end of a slide is written on a later line than its start, but it can be in an earlier track.  The slide
then begins after it is over, and its start is not counted (`read_lastTime_ne`).
-/

namespace RhythmChart

/-! ## The greatest number of a list -/

namespace Scalar

variable {α : Type} [Scalar α] {xs : List α} {x : α}

theorem greatest?_eq_none_iff : greatest? xs = none ↔ xs = [] := by
  cases xs with
  | nil => exact iff_of_true rfl rfl
  | cons y ys => exact iff_of_false (Option.some_ne_none _) (List.cons_ne_nil y ys)

/-- Of two numbers the greater one, of tied ones the second. -/
def later (x y : α) : α := if totalLE x y then y else x

theorem later_mem (x y : α) : later x y = x ∨ later x y = y := by
  unfold later
  split
  · exact .inr rfl
  · exact .inl rfl

variable [LawfulOrder α]

theorem le_later (x y : α) : totalLE x (later x y) = true ∧ totalLE y (later x y) = true := by
  unfold later
  split
  · next h => exact ⟨h, LawfulOrder.refl y⟩
  · next h =>
    have htotal := LawfulOrder.total x y
    rw [Bool.eq_false_iff.2 h, Bool.false_or] at htotal
    exact ⟨LawfulOrder.refl x, htotal⟩

/-- Going through a list, the greatest number so far stays above all that were passed. -/
theorem foldl_later (x : α) (ys : List α) :
    ys.foldl later x ∈ x :: ys ∧ ∀ y ∈ x :: ys, totalLE y (ys.foldl later x) = true := by
  induction ys generalizing x with
  | nil => exact ⟨List.mem_singleton_self x, List.forall_mem_singleton.2 (LawfulOrder.refl x)⟩
  | cons y ys ih =>
    obtain ⟨hmem, hle⟩ := ih (later x y)
    obtain ⟨hlater, hrest⟩ := List.forall_mem_cons.1 hle
    obtain ⟨hx, hy⟩ := le_later x y
    rw [List.foldl_cons]
    constructor
    · rcases List.mem_cons.1 hmem with heq | hmem
      · rw [heq]
        rcases later_mem x y with h | h <;> simp [h]
      · exact List.mem_cons_of_mem x (List.mem_cons_of_mem y hmem)
    · refine List.forall_mem_cons.2 ⟨LawfulOrder.trans _ _ _ hx hlater, List.forall_mem_cons.2 ⟨?_, hrest⟩⟩
      exact LawfulOrder.trans _ _ _ hy hlater

theorem greatest?_spec (h : greatest? xs = some x) : x ∈ xs ∧ ∀ y ∈ xs, totalLE y x = true := by
  cases xs with
  | nil => cases h
  | cons y ys =>
    cases h
    exact foldl_later y ys

end Scalar

/-! ## Last points -/

/-- All points of a note. -/
def Note.points {π : Type} : Note π → List π
  | .tap point => [point]
  | .slide _ start stop => [start, stop]

theorem Note.mem_points_iff {π : Type} {n : Note π} {p : π} : p ∈ n.points ↔ p = n.first ∨ p = n.final := by
  cases n with
  | tap point => exact List.mem_singleton.trans (or_self_iff).symm
  | slide channel start stop => exact List.mem_pair

namespace Song

variable {α : Type} [Scalar α] {s : Song α} {x : α}

/-- Some point is at these seconds, and no point is later. -/
structure IsLast (s : Song α) (x : α) : Prop where
  attained : ∃ n ∈ s.notes, ∃ p ∈ n.points, p.seconds = x
  latest : ∀ n ∈ s.notes, ∀ p ∈ n.points, Scalar.totalLE p.seconds x = true

theorem lastTime?_eq_none_iff : s.lastTime? = none ↔ s.notes = #[] := by
  rw [lastTime?, Scalar.greatest?_eq_none_iff, List.map_eq_nil_iff, Array.toList_eq_nil_iff]

variable [Scalar.LawfulOrder α]

/-- The last time is the greatest one at which a note is over. -/
theorem lastTime?_spec (h : s.lastTime? = some x) : (∃ n ∈ s.notes, n.final.seconds = x) ∧
    ∀ n ∈ s.notes, Scalar.totalLE n.final.seconds x = true := by
  obtain ⟨hmem, hle⟩ := Scalar.greatest?_spec h
  obtain ⟨n, hn, heq⟩ := List.mem_map.1 hmem
  refine ⟨⟨n, Array.mem_toList_iff.1 hn, heq⟩, fun n hn => hle _ ?_⟩
  exact List.mem_map.2 ⟨n, Array.mem_toList_iff.2 hn, rfl⟩

/-- It is the time of the last point if no note begins later. -/
theorem isLast_iff (h : s.lastTime? = some x) :
    s.IsLast x ↔ ∀ n ∈ s.notes, Scalar.totalLE n.first.seconds x = true := by
  obtain ⟨⟨n, hn, heq⟩, hfinal⟩ := lastTime?_spec h
  constructor
  · intro hlast n hn
    exact hlast.latest n hn n.first (Note.mem_points_iff.2 (.inl rfl))
  · intro hfirst
    refine ⟨⟨n, hn, n.final, Note.mem_points_iff.2 (.inr rfl), heq⟩, fun n hn p hp => ?_⟩
    rcases Note.mem_points_iff.1 hp with rfl | rfl
    · exact hfirst n hn
    · exact hfinal n hn

end Song

/-! ## Slides that end after their starts -/

namespace Chart

open Binary64 Token

variable {prompter : Prompter Float} {ts : List (Spanned (Token Float))} {r : Rulings Float}
  {defs : List (Definition Float)} {chart : Chart Float}

/-- No measure has less than no beats, no number on the way is undefined, and no slide ends before its start
on the chart. -/
structure Orderly (ts : List (Spanned (Token Float))) (chart : Chart Float) : Prop where
  rates : ∀ a ∈ chart.song.measureAnchors, 0 ≤ a.beats.val
  tempo_defined : ∀ k ∈ chart.song.tempo.knots, k.value.isNaN = false
  notes_defined : ∀ n ∈ chart.song.notes, ∀ p ∈ n.points, p.seconds.isNaN = false
  forward : ∀ channel x y, Paired (edgesOn channel (laneLines chart.song.measures ts)) x y →
    (compare x.slot.time y.slot.time).isLE = true

/-- Starts and ends that are written in the order of their times make slides that go forward. -/
theorem isLE_of_inOrder {measures : MeasureTimeline Float} {channel : Nat} {x y : SlideEdge Float}
    (h : InOrder (edgesOn channel (laneLines measures ts)))
    (hxy : Paired (edgesOn channel (laneLines measures ts)) x y) :
    (compare x.slot.time y.slot.time).isLE = true :=
  h.isLE (pairwise_before_edgesFrom 0 _) hxy.start_mem hxy.stop_mem hxy.before

theorem slot_mem_slots {measures : MeasureTimeline Float} {channel : Nat} {x : SlideEdge Float}
    (h : x ∈ edgesOn channel (laneLines measures ts)) : x.slot ∈ slots measures ts := by
  obtain ⟨slots, hline, hslot⟩ := exists_slides_of_mem_edgesOn h
  obtain ⟨track, payload, hmem, rfl⟩ := slides_mem_laneLines_iff.1 hline
  exact mem_slots_iff.2 ⟨track, _, payload, _, hmem, hslot⟩

namespace MadeOf

variable (m : MadeOf prompter ts r defs chart) (hts : ∀ t ∈ ts, t.content.Bounded)
  (hexact : ∀ s ∈ slots chart.song.measures ts, s.time.Exact) (h : chart.Orderly ts)

include m hts hexact h

/-- The beats of slots have no minus sign. -/
theorem unsigned_beat {s : Slot Float} (hs : s ∈ slots chart.song.measures ts) :
    Unsigned s.beat.toModel.unpack := by
  have hnumber := number_lt_of_mem_slots hts hs
  rw [beat_of_mem_slots hs]
  exact (m.onward hts h.rates).unsigned_beat (SlotTime.measure_nonneg (hexact s hs) hnumber)
    (SlotTime.isFinite_measure (hexact s hs) hnumber)

/-- Neither have those of the changes of tempo. -/
theorem unsigned_position {i : Nat} (hi : i < chart.song.tempo.knots.size) :
    Unsigned chart.song.tempo.knots[i].position.toModel.unpack := by
  have hchange : chart.song.tempo.knots[i].change ∈ chart.song.changes := Timeline.change_mem hi
  change Unsigned chart.song.tempo.knots[i].change.beat.toModel.unpack
  rcases m.beat_of_mem_changes hchange with hzero | ⟨s, hs, hbeat⟩
  · rw [hzero]
    exact .zero
  · rw [hbeat]
    exact m.unsigned_beat hts hexact h hs

/-- A slide that goes forward on the chart is not over before it begins. -/
theorem rank_seconds_le {channel : Nat} {x y : SlideEdge Float}
    (hxy : Paired (edgesOn channel (laneLines chart.song.measures ts)) x y)
    (hx : (chart.song.tempo.seconds x.slot.beat).isNaN = false)
    (hy : (chart.song.tempo.seconds y.slot.beat).isNaN = false) :
    rank (chart.song.tempo.seconds x.slot.beat) ≤ rank (chart.song.tempo.seconds y.slot.beat) := by
  have hxs := slot_mem_slots hxy.start_mem
  have hys := slot_mem_slots hxy.stop_mem
  have hdefined (i : Nat) (hi : i < chart.song.tempo.knots.size) :
      chart.song.tempo.knots[i].value.isNaN = false := h.tempo_defined _ (Array.getElem_mem hi)
  have hforward := h.forward channel x y hxy
  have hbeat := m.beat_le_beat hts h.rates hxs hys (hexact _ hxs) (hexact _ hys) hforward
  refine rank_le_rank ?_ ?_
  · exact BpmTimeline.seconds_le_seconds m.tempo hdefined (isFinite_waveOffset ts) hbeat hx hy
  · have hpositions (i : Nat) (hi : i < chart.song.tempo.knots.size) :
        Unsigned chart.song.tempo.knots[i].position.toModel.unpack := m.unsigned_position hts hexact h hi
    exact BpmTimeline.not_isMinusZero_seconds m.tempo hdefined hpositions (le_iff.1 hbeat).2.1
      (m.unsigned_beat hts hexact h hys)

theorem first_le_final {n : Note (Point Float)} (hn : n ∈ chart.song.notes) :
    Scalar.totalLE n.first.seconds n.final.seconds = true := by
  obtain ⟨hmarks, hplaced⟩ := m.exists_of_mem_notes (Array.mem_toList_iff.2 hn)
  have hfirst := h.notes_defined n hn n.first (Note.mem_points_iff.2 (.inl rfl))
  have hfinal := h.notes_defined n hn n.final (Note.mem_points_iff.2 (.inr rfl))
  rw [← m.measures] at hmarks
  cases n with
  | tap point => exact Scalar.LawfulOrder.refl _
  | slide c start stop =>
    rcases mem_assemble_notes hmarks with ⟨lane, slots, -, s, -, heq⟩ | ⟨c', x, y, hxy, heq⟩
    · cases heq
    · obtain ⟨rfl, hstart, hstop⟩ := Note.slide.inj heq
      obtain ⟨hplaced, hplaced'⟩ := hplaced
      have hx : start.beat = x.slot.beat := congrArg Mark.beat hstart
      have hy : stop.beat = y.slot.beat := congrArg Mark.beat hstop
      dsimp only [Note.first, Note.final] at hfirst hfinal ⊢
      rw [hplaced, hx] at hfirst ⊢
      rw [hplaced', hy] at hfinal ⊢
      exact decide_eq_true (m.rank_seconds_le hts hexact h hxy hfirst hfinal)

end MadeOf

/-- The last time is the greatest one at which a note is over.  It is the time of the last point exactly if no
note begins later, and so it is if no slide ends before its start on the chart. -/
theorem read_lastTime (prompter : Prompter Float) (source : List Char) {ts : List (Spanned (Token Float))}
    (hscan : scan source = .ok ts) {chart : Chart Float} (h : (read prompter source).result = .ok chart) :
    (chart.song.lastTime? = none ↔ chart.song.notes = #[]) ∧
      ∀ x, chart.song.lastTime? = some x →
        ((∃ n ∈ chart.song.notes, n.final.seconds = x) ∧
          ∀ n ∈ chart.song.notes, Scalar.totalLE n.final.seconds x = true) ∧
        (chart.song.IsLast x ↔ ∀ n ∈ chart.song.notes, Scalar.totalLE n.first.seconds x = true) ∧
        (source.length ≤ 2 ^ 54 → chart.Orderly ts → chart.song.IsLast x) := by
  refine ⟨Song.lastTime?_eq_none_iff, fun x hx => ⟨Song.lastTime?_spec hx, Song.isLast_iff hx, ?_⟩⟩
  intro hlength horderly
  obtain ⟨ts', hscan', hok⟩ := read_eq_ok_iff.1 h
  obtain rfl : ts = ts' := Except.ok.inj (hscan.symm.trans hscan')
  obtain ⟨r, defs, m⟩ := exists_madeOf hok
  refine (Song.isLast_iff hx).2 fun n hn => ?_
  have hle := m.first_le_final (fun t ht => bounded_of_scan hscan ht)
    (fun s hs => exact_of_mem_slots hscan hlength hs) horderly hn
  exact Scalar.LawfulOrder.trans _ _ _ hle ((Song.lastTime?_spec hx).2 n hn)

/-- A slide across two lines, with a tap between its ends, one before them and one on its end. -/
theorem read_lastTime_of_slide :
    ∃ chart, (read (Prompter.always .halt)
        "#BPM01:120\n#00110:14\n#0023a0:12\n#00310:14\n#0043b0:22\n#00412:14".toList).result = .ok chart ∧
      chart.song.notes.size = 4 ∧ ∃ x, chart.song.lastTime? = some x ∧ chart.song.IsLast x := by
  obtain ⟨ts, chart, hscan, hok, hcheck⟩ := exists_read_of_check (Prompter.always .halt)
    "#BPM01:120\n#00110:14\n#0023a0:12\n#00310:14\n#0043b0:22\n#00412:14".toList
    (fun ts chart =>
      chart.song.measureAnchors.all (fun a => decide (0 ≤ a.beats.val)) &&
      chart.song.tempo.knots.all (fun k => !k.value.isNaN) &&
      chart.song.notes.all (fun n => n.points.all fun p => !p.seconds.isNaN) &&
      (List.range 36).all (fun channel =>
        decide (InOrder (edgesOn channel (laneLines chart.song.measures ts)))) &&
      decide (chart.song.notes.size = 4))
    (by
      unfold ofTokens resolve assembleSong BpmTimeline.ofChanges?
      rw [scan_eq_mapM, BpmTimeline.sort_eq_insertionSort, placeNotes_eq_insertionSort]
      decide +kernel)
  simp only [Bool.and_eq_true, List.all_eq_true, Array.all_eq_true', decide_eq_true_iff, Bool.not_eq_true',
    List.mem_range] at hcheck
  obtain ⟨⟨⟨⟨hrates, htempo⟩, hnotes⟩, hordered⟩, hsize⟩ := hcheck
  have horderly : chart.Orderly ts := by
    refine ⟨hrates, htempo, hnotes, fun channel x y hxy => ?_⟩
    have hchannel := (bounded_of_mem_edgesOn (fun t ht => bounded_of_scan hscan ht) hxy.start_mem).1
    exact isLE_of_inOrder (hordered channel (Nat.lt_succ_of_le hchannel)) hxy
  obtain ⟨hnone, hlast⟩ := read_lastTime _ _ hscan hok
  have hne : chart.song.lastTime? ≠ none := by
    intro hempty
    rw [hnone.1 hempty] at hsize
    cases hsize
  obtain ⟨x, hx⟩ := Option.ne_none_iff_exists'.1 hne
  exact ⟨chart, hok, hsize, x, hx, (hlast x hx).2.2 (by decide) horderly⟩

/-- The slide begins in the second measure, after four seconds.  Its end is written on the next line but is in
the first measure, so the note is over when the song begins, and the last time is zero. -/
theorem read_lastTime_ne :
    ∃ chart, (read (Prompter.always .halt) "#BPM01:60\n#00008:01\n#00130a:12\n#00030a:22\n".toList).result =
        .ok chart ∧ chart.song.lastTime? = some 0 ∧ (∃ n ∈ chart.song.notes, n.first.seconds = 4) ∧
      ¬ chart.song.IsLast 0 := by
  obtain ⟨ts, chart, -, hok, hcheck⟩ := exists_read_of_check (Prompter.always .halt)
    "#BPM01:60\n#00008:01\n#00130a:12\n#00030a:22\n".toList
    (fun _ chart => decide (chart.song.lastTime? = some 0) &&
      chart.song.notes.any fun n => decide (n.first.seconds = 4))
    (by
      unfold ofTokens resolve assembleSong BpmTimeline.ofChanges?
      rw [scan_eq_mapM, BpmTimeline.sort_eq_insertionSort, placeNotes_eq_insertionSort]
      decide +kernel)
  rw [Bool.and_eq_true, decide_eq_true_iff, Array.any_eq_true'] at hcheck
  obtain ⟨hlast, n, hn, hfirst⟩ := hcheck
  have hfour : n.first.seconds = 4 := of_decide_eq_true hfirst
  refine ⟨chart, hok, hlast, ⟨n, hn, hfour⟩, fun h => ?_⟩
  have hle := h.latest n hn n.first (Note.mem_points_iff.2 (.inl rfl))
  rw [hfour] at hle
  exact absurd hle (by decide)

end Chart

end RhythmChart
