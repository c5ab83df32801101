import RhythmChart.Proofs.Chronology
import RhythmChart.Proofs.Notes
import RhythmChart.Proofs.Timeline.Linear
import RhythmChart.Proofs.Timeline.Measures

/-!
# Slides that go forward

Without rounding, a slide goes forward if its end is not before its start on the chart: the beats of slots
never decrease along their times, and the seconds grow with the beats.  Both ends of a slide on one line
are in that order, because the objects of a message come in the order of their times.  Ends on two lines are
if the starts and ends of their channel are written in order (`ofTokens_slides_forward`).
-/

open scoped List

namespace RhythmChart

/-! ## Times without rounding -/

namespace SlotTime

variable {s t : SlotTime}

theorem measure_eq_share (t : SlotTime) : (t.measure : ℚ) = t.track.number + t.share := rfl

theorem measure_nonneg_exact (t : SlotTime) : 0 ≤ (t.measure : ℚ) :=
  add_nonneg (Nat.cast_nonneg _) t.share_nonneg

/-- The order of times is that of positions. -/
theorem measure_le_measure_exact (h : (compare s t).isLE = true) : (s.measure : ℚ) ≤ t.measure := by
  change ((compare s.track t.track).then _).isLE = true at h
  rw [measure_eq_share, measure_eq_share]
  rcases Nat.lt_trichotomy s.track.number t.track.number with hlt | heq | hgt
  · have hstep : (s.track.number : ℚ) + 1 ≤ t.track.number := by exact_mod_cast hlt
    calc s.track.number + s.share ≤ s.track.number + 1 := add_le_add_right s.share_le_one _
      _ ≤ t.track.number := hstep
      _ ≤ t.track.number + t.share := le_add_of_nonneg_right t.share_nonneg
  · rw [show compare s.track t.track = .eq from Nat.compare_eq_eq.2 heq, Ordering.eq_then,
      Nat.isLE_compare] at h
    rw [heq]
    exact add_le_add_right (share_le_share h) _
  · rw [show compare s.track t.track = .gt from Nat.compare_eq_gt.2 hgt] at h
    cases h

end SlotTime

theorem BpmTimeline.strictMono_seconds {cs : List (BpmChange ℚ)} {waveOffset : ℚ} {t : BpmTimeline ℚ}
    (h : ofChanges? cs waveOffset = some t) : StrictMono t.seconds := by
  have hne : cs ≠ [] := by
    intro hnil
    rw [ofChanges?_eq_none_iff.2 hnil] at h
    cases h
  obtain ⟨t', ht', rfl, -, hresolved⟩ := exists_resolved hne waveOffset
  obtain rfl : t' = t := Option.some.inj (ht'.symm.trans h)
  exact hresolved.strictMono_valueAt fun i hi =>
    div_pos (by norm_num) t'.knots[i].change.bpm.pos

/-- Where no measure has less than no beats, the beats of positions never decrease. -/
theorem MeasureTimeline.Whole.monotoneOn {t : MeasureTimeline ℚ} (h : t.Whole)
    (hrates : ∀ k ∈ t.knots, 0 ≤ k.change.beats.val) : MonotoneOn t.beat (Set.Ici 0) :=
  h.monotoneOn_iff.2 fun m => hrates _ (Timeline.Resolved.current_mem t (m : ℚ))

/-! ## The order of edges -/

section Edges

variable {α : Type}

/-- The edges are written in the order of their times. -/
def InOrder (E : List (SlideEdge α)) : Prop :=
  E.Pairwise fun x y => (compare x.slot.time y.slot.time).isLE = true

instance (E : List (SlideEdge α)) : Decidable (InOrder E) :=
  inferInstanceAs (Decidable (E.Pairwise _))

theorem Paired.before {E : List (SlideEdge α)} {x y : SlideEdge α} (h : Paired E x y) : x.Before y := by
  rcases h with ⟨-, -, -, -, hline, hindex⟩ | ⟨-, -, hlater, -, -⟩
  · exact .inr ⟨hline.symm, by omega⟩
  · exact .inl hlater

theorem SlideEdge.Before.asymm {x y : SlideEdge α} (h : x.Before y) : ¬ y.Before x := by
  intro h'
  rcases h with h | ⟨h, h₁⟩ <;> rcases h' with h' | ⟨h', h₂⟩ <;> omega

/-- Of edges that are written in order, one that comes before another one is not later. -/
theorem InOrder.isLE {E : List (SlideEdge α)} (h : InOrder E) (hplaces : E.Pairwise SlideEdge.Before)
    {x y : SlideEdge α} (hx : x ∈ E) (hy : y ∈ E) (hxy : x.Before y) :
    (compare x.slot.time y.slot.time).isLE = true := by
  obtain ⟨i, hi, rfl⟩ := List.mem_iff_getElem.1 hx
  obtain ⟨j, hj, rfl⟩ := List.mem_iff_getElem.1 hy
  rcases Nat.lt_trichotomy i j with hlt | rfl | hgt
  · exact List.pairwise_iff_getElem.1 h i j hi hj hlt
  · exact absurd hxy hxy.asymm
  · exact absurd (List.pairwise_iff_getElem.1 hplaces j i hj hi hgt) hxy.asymm

variable [Scalar α] {measures : MeasureTimeline α} {ts : List (Spanned (Token α))} {channel : Nat}
  {x y : SlideEdge α}

open Token

theorem beat_of_mem_edgesOn (h : x ∈ edgesOn channel (laneLines measures ts)) :
    x.slot.beat = measures.beat x.slot.time.measure := by
  obtain ⟨slots, hline, hslot⟩ := exists_slides_of_mem_edgesOn h
  obtain ⟨track, payload, -, rfl⟩ := slides_mem_laneLines_iff.1 hline
  obtain ⟨i, written⟩ := Slot.mem_decode.1 hslot
  exact written.beat

/-- The edges of one line are written in order. -/
theorem inOrder_edges {l : LaneLine α} (h : l ∈ laneLines measures ts) (number : Nat) :
    InOrder (l.edges channel number) := by
  cases l with
  | taps lane slots => exact List.Pairwise.nil
  | slides lane c slots span =>
    obtain ⟨track, payload, -, rfl⟩ := slides_mem_laneLines_iff.1 h
    rw [LaneLine.edges]
    split
    · have htimes := (Slot.pairwise_decode measures track payload.toList).filter Slot.isEdge
      rw [← SlideEdge.map_slot_ofSlots number lane 0 span
        ((Slot.decode measures track payload.toList).filter _), List.pairwise_map] at htimes
      exact htimes.imp fun hlt => by rw [hlt]; rfl
    · exact List.Pairwise.nil

theorem isLE_of_line_eq (hx : x ∈ edgesOn channel (laneLines measures ts))
    (hy : y ∈ edgesOn channel (laneLines measures ts)) (hline : x.line = y.line)
    (hxy : x.Before y) : (compare x.slot.time y.slot.time).isLE = true := by
  obtain ⟨l, hl, hx⟩ := mem_edgesOn.1 hx
  obtain ⟨l', hl', hy⟩ := mem_edgesOn.1 hy
  rw [← hline] at hl' hy
  obtain rfl : l = l' := Option.some.inj (hl.symm.trans hl')
  have hplaces : (edgesFrom channel x.line [l]).Pairwise SlideEdge.Before :=
    pairwise_before_edgesFrom x.line [l]
  rw [edgesFrom_cons, edgesFrom_nil, List.append_nil] at hplaces
  exact (inOrder_edges (List.mem_of_getElem? hl) x.line).isLE hplaces hx hy hxy

end Edges

/-! ## Notes -/

/-- The note does not end before it begins, neither in beats nor in seconds. -/
def Note.Forward (n : Note (Point ℚ)) : Prop :=
  n.first.beat ≤ n.final.beat ∧ n.first.seconds ≤ n.final.seconds

/-- The mark at the seconds of its beat. -/
def BpmTimeline.place {α : Type} [Scalar α] (t : BpmTimeline α) (m : Mark α) : Point α :=
  ⟨m, t.seconds m.beat⟩

namespace Chart

open Token

/-- The slides on a channel are those of its pairs, placed on seconds. -/
theorem MadeOf.filter_isOn_perm {α : Type} [Scalar α] {prompter : Prompter α}
    {ts : List (Spanned (Token α))} {r : Rulings α} {defs : List (Definition α)} {chart : Chart α}
    (m : MadeOf prompter ts r defs chart) (channel : Nat) :
    chart.song.notes.toList.filter (Note.isOn channel) ~
      ((assemble (laneLines chart.song.measures ts)).notes.filter (Note.isOn channel)).map
        (Note.map chart.song.tempo.place) := by
  have hperm := (List.mergeSort_perm ((assemble (laneLines r.measures ts)).notes.map
    (Note.map chart.song.tempo.place)) fun a b => Scalar.totalLE a.firstTime b.firstTime).filter
      (Note.isOn channel)
  rw [List.filter_map] at hperm
  rw [m.notes, m.measures]
  refine hperm.trans (List.Perm.of_eq ?_)
  congr 2
  funext n
  exact Note.isOn_map _ channel n

/-- No measure has less than no beats if none is declared to. -/
theorem measureAnchors_nonneg {prompter : Prompter ℚ} {ts : List (Spanned (Token ℚ))} {chart : Chart ℚ}
    (h : (ofTokens prompter ts).result = .ok chart)
    (hdeclared : ∀ d ∈ beatsDeclarations ts, 0 ≤ d.value.val) :
    ∀ a ∈ chart.song.measureAnchors, 0 ≤ a.beats.val := by
  obtain ⟨r, defs, m⟩ := exists_madeOf h
  have settled := m.course.definitionsSettled.beats
  intro a ha
  have hchange := List.mem_map_of_mem (f := MeasureAnchor.toMeasureChange) ha
  rw [Song.map_change_measureAnchors, m.measures, Rulings.measures, measureTimeline_eq] at hchange
  by_cases hnil : measureChanges (keptAfter r.beats) = []
  · rw [hnil, MeasureTimeline.map_change_ofChanges_nil, List.mem_singleton] at hchange
    rw [hchange]
    decide
  · rw [MeasureTimeline.map_change_ofChanges hnil] at hchange
    obtain ⟨track, beats, hkept, heq⟩ := (mem_measureChanges _).1 hchange
    have hmem := settled.ruled.grounded.declared track beats hkept
    rw [settled.complete] at hmem
    rw [heq]
    exact hdeclared _ hmem

/-- In a chart without negative measures, a slide goes forward if its ends are on one line, or if the
starts and ends of its channel are written in the order of their times. -/
theorem ofTokens_slides_forward (prompter : Prompter ℚ) (ts : List (Spanned (Token ℚ)))
    {chart : Chart ℚ} (h : (ofTokens prompter ts).result = .ok chart)
    (hrates : ∀ a ∈ chart.song.measureAnchors, 0 ≤ a.beats.val) (channel : ℕ) :
    ∃ pairs unclosed unmatched,
      IsPairing (edgesOn channel (laneLines chart.song.measures ts)) pairs unclosed unmatched ∧
      chart.song.notes.toList.filter (Note.isOn channel) ~
        pairs.map (fun p => (SlideEdge.slide channel p.1 p.2).map chart.song.tempo.place) ∧
      (∀ p ∈ pairs, p.1.line = p.2.line →
        ((SlideEdge.slide channel p.1 p.2).map chart.song.tempo.place).Forward) ∧
      (InOrder (edgesOn channel (laneLines chart.song.measures ts)) →
        ∀ n ∈ chart.song.notes, n.isOn channel → n.Forward) := by
  obtain ⟨r, defs, m⟩ := exists_madeOf h
  have hseconds := BpmTimeline.strictMono_seconds m.tempo
  have hbeats : MonotoneOn chart.song.measures.beat (Set.Ici 0) := by
    have hwhole := whole_measureTimeline (keptAfter r.beats)
    rw [← Rulings.measures, ← m.measures] at hwhole
    refine hwhole.monotoneOn fun k hk => ?_
    have hchange := List.mem_map_of_mem (f := Knot.change) (Array.mem_toList_iff.2 hk)
    rw [← Song.map_change_measureAnchors] at hchange
    obtain ⟨a, ha, heq⟩ := List.mem_map.1 hchange
    exact heq ▸ hrates a ha
  have hforward {x y : SlideEdge ℚ} (hxy : Paired (edgesOn channel (laneLines chart.song.measures ts)) x y)
      (hle : (compare x.slot.time y.slot.time).isLE = true) :
      ((SlideEdge.slide channel x y).map chart.song.tempo.place).Forward := by
    have hbeat : x.slot.beat ≤ y.slot.beat := by
      rw [beat_of_mem_edgesOn hxy.start_mem, beat_of_mem_edgesOn hxy.stop_mem]
      exact hbeats x.slot.time.measure_nonneg_exact y.slot.time.measure_nonneg_exact
        (SlotTime.measure_le_measure_exact hle)
    exact ⟨hbeat, hseconds.monotone hbeat⟩
  have hpairing := isPairing_traceFrom channel (laneLines chart.song.measures ts)
  have hperm := m.filter_isOn_perm channel
  rw [filter_slides, List.map_map] at hperm
  refine ⟨_, _, _, hpairing, hperm, fun p hp hline => ?_, fun hordered n hn hon => ?_⟩
  · have hpaired := (hpairing.mem_pairs p.1 p.2).1 hp
    exact hforward hpaired
      (isLE_of_line_eq hpaired.start_mem hpaired.stop_mem hline hpaired.before)
  · have hmem := hperm.mem_iff.1 (List.mem_filter.2 ⟨Array.mem_toList_iff.2 hn, hon⟩)
    obtain ⟨p, hp, rfl⟩ := List.mem_map.1 hmem
    have hpaired := (hpairing.mem_pairs p.1 p.2).1 hp
    exact hforward hpaired (hordered.isLE (pairwise_before_edgesFrom 0 _) hpaired.start_mem
      hpaired.stop_mem hpaired.before)

/-- A slide across a change of tempo and a slide on one line, in measures of three beats. -/
theorem ofTokens_slides_forward_of_two :
    let ts : List (Spanned (Token ℚ)) := [⟨.bpmDefinition ⟨1⟩ ⟨120, rfl⟩, ⟨0, 9⟩⟩,
      ⟨.bpmDefinition ⟨2⟩ ⟨90, rfl⟩, ⟨10, 19⟩⟩, ⟨.beatsPerMeasure ⟨0⟩ ⟨3, rfl⟩, ⟨20, 29⟩⟩,
      ⟨.message ⟨0⟩ .bpmChange "01", ⟨30, 39⟩⟩, ⟨.message ⟨1⟩ .bpmChange "0002", ⟨40, 49⟩⟩,
      ⟨.message ⟨1⟩ (.slide 2 0) "14", ⟨50, 59⟩⟩, ⟨.message ⟨2⟩ (.slide 4 0) "241324", ⟨60, 69⟩⟩]
    ∃ chart, (ofTokens (.always .halt) ts).result = .ok chart ∧ chart.song.notes.size = 2 ∧
      ∀ n ∈ chart.song.notes, n.isOn 0 → n.Forward := by
  intro ts
  have hcheck : ((ofTokens (.always .halt) ts).result.toOption.any fun chart =>
      decide (InOrder (edgesOn 0 (laneLines chart.song.measures ts))) &&
        decide (chart.song.notes.size = 2)) = true := by
    unfold ofTokens resolve assembleSong BpmTimeline.ofChanges?
    rw [BpmTimeline.sort_eq_insertionSort, placeNotes_eq_insertionSort]
    decide +kernel
  cases hok : (ofTokens (.always .halt) ts).result with
  | error e =>
    rw [hok] at hcheck
    cases hcheck
  | ok chart =>
    rw [hok, Except.toOption, Option.any_some, Bool.and_eq_true, decide_eq_true_iff,
      decide_eq_true_iff] at hcheck
    have hrates := measureAnchors_nonneg hok (by decide +kernel)
    obtain ⟨-, -, -, -, -, -, hforward⟩ := ofTokens_slides_forward _ ts hok hrates 0
    exact ⟨chart, rfl, hcheck.2, hforward hcheck.1⟩

end Chart

end RhythmChart
