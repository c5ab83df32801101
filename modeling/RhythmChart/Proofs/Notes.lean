import RhythmChart.Proofs.Course
import RhythmChart.Proofs.Order
import RhythmChart.Proofs.Slides.Emission
import RhythmChart.Proofs.Slots

/-!
# What becomes of notes

The notes of an accepted chart are those that its lines give, placed on seconds and sorted by the first
time of each; notes of one time stay in the order in which they came.  No slot is lost on the way: each
slide slot of a kind is counted by a slide or by a warning (`ofTokens_accounts_for_notes`).
-/

open scoped List

namespace RhythmChart

variable {α : Type}

/-! ## Slots of slide messages -/

theorem SlideEdge.map_slot_ofSlots (line lane index : Nat) (span : Span) (slots : List (Slot α)) :
    (ofSlots line lane span index slots).map SlideEdge.slot = slots := by
  rw [ofSlots, List.map_map]
  exact List.zipIdx_map_fst index slots

theorem countP_edges {kind : Nat} (hkind : kind = 1 ∨ kind = 2)
    (lane c channel number : Nat) (slots : List (Slot α)) (span : Span) :
    ((LaneLine.slides lane c slots span).edges channel number).countP (fun x => x.slot.high.val = kind) =
      if c = channel then slots.countP fun s => s.high.val = kind else 0 := by
  rw [LaneLine.edges]
  by_cases hc : c = channel
  · have hmap := List.countP_map (p := fun s : Slot α => decide (s.high.val = kind))
      (f := SlideEdge.slot) (l := SlideEdge.ofSlots number lane span 0 (slots.filter Slot.isEdge))
    rw [SlideEdge.map_slot_ofSlots, List.countP_filter] at hmap
    rw [if_pos hc, if_pos hc]
    refine hmap.symm.trans (List.countP_congr fun s _ => ?_)
    -- A slot of one of the two kinds is an edge.
    have hedge : s.high.val = kind → s.isEdge = true := by
      rintro rfl
      exact decide_eq_true hkind
    simpa using hedge
  · rw [if_neg hc, if_neg hc]
    rfl

namespace Token

variable [Scalar α]

/-- The digits of the objects on the slide messages of a channel, as their characters write them. -/
def slideDigits (channel : Nat) (ts : List (Spanned (Token α))) : List (Digit × Digit) :=
  ts.flatMap fun t =>
    match t.content with
    | .message _ (.slide _ c) payload =>
      if c = channel then (List.range (payload.toList.length / 2)).filterMap (Slot.digitsAt? payload.toList)
      else []
    | _ => []

/-- The slots on a channel whose first digit is a kind. -/
def countSlots (kind : Nat) (channel : Nat) (ts : List (Spanned (Token α))) : Nat :=
  (slideDigits channel ts).countP fun d => d.1.val = kind

theorem countSlots_append (kind : Nat) (channel : Nat) (ts ts' : List (Spanned (Token α))) :
    countSlots kind channel (ts ++ ts') = countSlots kind channel ts + countSlots kind channel ts' := by
  rw [countSlots, slideDigits, List.flatMap_append, List.countP_append]
  rfl

theorem countSlots_slide (measures : MeasureTimeline α) (kind : Nat) (track : Track)
    (lane c channel : Nat) (payload : String) (span : Span) :
    countSlots kind channel [(⟨.message track (.slide lane c) payload, span⟩ : Spanned (Token α))] =
      if c = channel then (Slot.decode measures track payload.toList).countP fun s => s.high.val = kind
      else 0 := by
  rw [countSlots, slideDigits, List.flatMap_singleton]
  change List.countP _ (if c = channel then _ else _) = _
  by_cases hc : c = channel
  · rw [if_pos hc, if_pos hc, ← Slot.map_digits_decode measures track, List.countP_map]
    rfl
  · rw [if_neg hc, if_neg hc, List.countP_nil]

/-- Slots are counted by the edges of their lines. -/
theorem countP_edgesFrom_laneLines {kind : Nat} (hkind : kind = 1 ∨ kind = 2)
    (measures : MeasureTimeline α) (channel number : Nat) (ts : List (Spanned (Token α))) :
    (edgesFrom channel number (laneLines measures ts)).countP (fun x => x.slot.high.val = kind) =
      countSlots kind channel ts := by
  induction ts generalizing number with
  | nil => rfl
  | cons t ts ih =>
    have hsplit := countSlots_append kind channel [t] ts
    rw [List.singleton_append] at hsplit
    obtain ⟨content, span⟩ := t
    cases content with
    | message track c payload =>
      cases c with
      | tap lane =>
        rw [hsplit, show countSlots kind channel _ = 0 from rfl, Nat.zero_add, ← ih (number + 1)]
        rfl
      | slide lane c =>
        rw [hsplit, ← ih (number + 1)]
        change (edgesFrom channel number (.slides lane c (Slot.decode measures track payload.toList)
          span :: laneLines measures ts)).countP _ = _
        rw [edgesFrom_cons, List.countP_append, countP_edges hkind, countSlots_slide measures]
      | _ => exact (ih number).trans (hsplit.trans (Nat.zero_add _)).symm
    | _ => exact (ih number).trans (hsplit.trans (Nat.zero_add _)).symm

end Token

/-! ## Accepted charts -/

/-- The seconds when a note begins: those of the tap, or of the start of the slide. -/
def Note.begin : Note (Point α) → α
  | .tap point => point.seconds
  | .slide _ start _ => start.seconds

theorem Note.firstTime_eq (n : Note (Point α)) : n.firstTime = n.begin := by
  cases n <;> rfl

/-- The notes are those given, in the total order of the times when they begin; notes that begin at one time stay in
the order given. -/
structure Note.SortedByTime (given notes : List (Note (Point Float))) : Prop where
  perm : notes ~ given
  ordered : notes.Pairwise fun a b => ¬ Binary64.Precedes b.begin a.begin
  stable : ∀ x : Float, notes.filter (fun n => n.begin.toBits = x.toBits) =
    given.filter fun n => n.begin.toBits = x.toBits

theorem SortedFrom.sortedByTime {given notes : List (Note (Point Float))}
    (h : SortedFrom Note.begin given notes) : Note.SortedByTime given notes where
  perm := h.perm
  ordered := h.ordered.imp Binary64.totalLE_iff.1
  stable x := by
    have hstable := h.stable x
    simpa only [Binary64.tied_eq, eq_comm] using hstable

theorem Note.isOn_map {π ψ : Type} (f : π → ψ) (channel : Nat) (n : Note π) :
    (n.map f).isOn channel = n.isOn channel := by
  cases n <;> rfl

namespace Chart

open Token

/-- Notes can be sorted by insertion, which closed terms compute. -/
theorem placeNotes_eq_insertionSort [Scalar α] [Scalar.LawfulOrder α] :
    (placeNotes : BpmTimeline α → List (Note (Mark α)) → _) = fun tempo notes =>
      (notes.map (Note.map fun m => ⟨m, tempo.seconds m.beat⟩)).insertionSort
        fun a b => Scalar.totalLE a.firstTime b.firstTime = true :=
  funext fun _ => funext fun _ => mergeSort_eq_insertionSort Note.firstTime _

variable [Scalar α] {prompter : Prompter α} {ts : List (Spanned (Token α))} {r : Rulings α}
  {defs : List (Definition α)} {chart : Chart α}

namespace MadeOf

theorem countP_notes (m : MadeOf prompter ts r defs chart) (channel : Nat) :
    chart.song.notes.toList.countP (Note.isOn channel) =
      (assemble (laneLines r.measures ts)).notes.countP (Note.isOn channel) := by
  rw [m.notes, placeNotes, (List.mergeSort_perm _ _).countP_eq, List.countP_map]
  exact List.countP_congr fun n _ => by rw [Function.comp_apply, Note.isOn_map]

theorem countP_warnings (m : MadeOf prompter ts r defs chart) {p : Warning → Bool}
    (hp : ∀ w, p w = true → w.topic = .slide) :
    chart.warnings.countP (fun w => p w.content) =
      (assemble (laneLines r.measures ts)).warnings.countP fun w => p w.content := by
  rw [← Warning.countP_filter_topic hp chart.warnings, m.filter_warnings .slide]

end MadeOf

/-- What becomes of the slots of a chart. -/
structure NotesAccounted (ts : List (Spanned (Token Float))) (chart : Chart Float) : Prop where
  /-- A message has one object for each slot that writes one. -/
  objects : ∀ track payload, List.Forall₂
    (fun s i => Slot.WrittenAt chart.song.measures track payload i s)
    (Slot.decode chart.song.measures track payload) (Slot.sounding payload)
  /-- The notes are those that the lines give, placed on seconds and sorted by the times when they begin. -/
  notes : ∃ partner, IsPartner (laneLines chart.song.measures ts) partner ∧
    chart.song.notes.toList.map (Note.map Point.toMark) ~
      emitted partner (laneLines chart.song.measures ts) ∧
    Note.SortedByTime
      ((emitted partner (laneLines chart.song.measures ts)).map
        (Note.map fun m => ⟨m, chart.song.tempo.seconds m.beat⟩))
      chart.song.notes.toList
  starts : ∀ channel, countSlots 1 channel ts =
    chart.song.notes.toList.countP (Note.isOn channel) +
      chart.warnings.countP fun w => w.content.isUnclosedOn channel
  ends : ∀ channel, countSlots 2 channel ts =
    chart.song.notes.toList.countP (Note.isOn channel) +
      chart.warnings.countP fun w => w.content.isUnmatchedOn channel

/-- Each slot of an accepted chart becomes a note, a part of a slide, or a warning. -/
theorem ofTokens_accounts_for_notes (prompter : Prompter Float)
    (ts : List (Spanned (Token Float))) {chart : Chart Float}
    (h : (ofTokens prompter ts).result = .ok chart) : NotesAccounted ts chart := by
  obtain ⟨r, defs, m⟩ := exists_madeOf h
  obtain ⟨partner, hpartner⟩ := exists_isPartner (laneLines chart.song.measures ts)
  have hsorted : SortedFrom Note.begin
      ((emitted partner (laneLines chart.song.measures ts)).map
        (Note.map fun m => ⟨m, chart.song.tempo.seconds m.beat⟩)) chart.song.notes.toList := by
    rw [m.notes, ← assemble_notes hpartner, m.measures, ← funext Note.firstTime_eq]
    exact sortedFrom_mergeSort Note.firstTime _
  refine
    { objects := fun track payload => Slot.forall₂_decode chart.song.measures track payload
      notes := ⟨partner, hpartner, ?_, hsorted.sortedByTime⟩
      starts := fun channel => ?_
      ends := fun channel => ?_ }
  · refine (hsorted.perm.map _).trans (List.Perm.of_eq ?_)
    rw [List.map_map]
    exact List.map_id'' (fun n => by cases n <;> rfl) _
  · rw [m.countP_notes, m.countP_warnings fun w hw => ?_,
      ← countP_edgesFrom_laneLines (.inl rfl) r.measures channel 0]
    · exact count_starts channel (laneLines r.measures ts)
    · cases w <;> first | rfl | cases hw
  · rw [m.countP_notes, m.countP_warnings fun w hw => ?_,
      ← countP_edgesFrom_laneLines (.inr rfl) r.measures channel 0]
    · exact count_ends channel (laneLines r.measures ts)
    · cases w <;> first | rfl | cases hw

/-- A tap, a slide across two messages, and an end on another channel that has no start. -/
theorem ofTokens_accounts_for_notes_of_slide :
    let ts : List (Spanned (Token Float)) := [⟨.bpmDefinition ⟨1⟩ Finite.four, ⟨0, 9⟩⟩,
      ⟨.message ⟨0⟩ (.slide 2 0) "0014", ⟨10, 21⟩⟩, ⟨.message ⟨0⟩ (.tap 5) "13", ⟨22, 31⟩⟩,
      ⟨.message ⟨1⟩ (.slide 4 0) "24", ⟨32, 42⟩⟩, ⟨.message ⟨1⟩ (.slide 4 1) "24", ⟨43, 53⟩⟩]
    ∃ chart, (ofTokens (Prompter.always .halt) ts).result = .ok chart ∧ NotesAccounted ts chart := by
  intro ts
  obtain ⟨chart, hok⟩ : ∃ chart, (ofTokens (Prompter.always .halt) ts).result = .ok chart :=
    exists_eq_ok_of_isOk (by decide +kernel)
  exact ⟨chart, hok, ofTokens_accounts_for_notes _ ts hok⟩

end Chart

end RhythmChart
