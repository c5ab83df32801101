import RhythmChart.Proofs.Notes
import RhythmChart.Proofs.Timeline.Linear

/-!
# Another wave offset

Without rounding, the wave offset is a translation of all seconds, and nothing else depends on it.
`Timeline.shift`, `BpmTimeline.shift` and `Song.shift` say what is translated: the values of knots, the
seconds of points, and the wave offset the other way.  What is computed from a translated timeline is
translated (`valueAt_shift`), and resolving from a translated origin is resolving and then translating
(`resolve_shift`), so the same is true of each stage that puts a song together, up to the whole chart
(`ofTokens_waveOffset`).
-/

namespace RhythmChart

/-! ## Timelines -/

namespace Knot

variable {ρ : Type}

/-- The knot with its value changed by `d`. -/
def shift (d : ℚ) (k : Knot ρ ℚ) : Knot ρ ℚ := { k with value := k.value + d }

variable [Rate ρ ℚ]

@[simp]
theorem position_shift (d : ℚ) (k : Knot ρ ℚ) : (k.shift d).position = k.position := rfl

end Knot

namespace Timeline

variable {ρ : Type}

/-- All values of the knots are changed by `d`, the changes stay where they are. -/
def shift (d : ℚ) (t : Timeline ρ ℚ) : Timeline ρ ℚ where
  knots := t.knots.map (Knot.shift d)
  nonempty := by simpa using t.nonempty

theorem first_shift (d : ℚ) (t : Timeline ρ ℚ) : (t.shift d).first = t.first.shift d :=
  Array.getElem_map ..

theorem before_shift (d : ℚ) (t : Timeline ρ ℚ) (i : ℕ) (h : i ≤ (t.shift d).knots.size)
    (h' : i ≤ t.knots.size) : (t.shift d).before i h = (t.before i h').shift d :=
  Array.getElem_map ..

variable [Rate ρ ℚ]

theorem partitionPoint_shift (d : ℚ) (t : Timeline ρ ℚ) (p : ℚ → Bool) :
    partitionPoint (t.shift d).knots (fun k => p k.position) =
      partitionPoint t.knots fun k => p k.position :=
  partitionPoint_map (Knot.shift d) t.knots fun k => p k.position

variable [LinearRate ρ]

theorem advance_add (c : ρ) (value d distance : ℚ) :
    Rate.advance c (value + d) distance = Rate.advance c value distance + d := by
  rw [LinearRate.advance_eq, LinearRate.advance_eq]
  ring

theorem extend_shift (d : ℚ) (k : Knot ρ ℚ) (p : ℚ) : (k.shift d).extend p = k.extend p + d :=
  advance_add k.change k.value d _

/-- The values of a translated timeline, from a translated origin, are translated. -/
theorem valueAt_shift (d : ℚ) (t : Timeline ρ ℚ) (origin p : ℚ) :
    (t.shift d).valueAt (origin + d) p = t.valueAt origin p + d := by
  have hpoint : partitionPoint (t.shift d).knots (fun k => decide (k.position < p)) =
      partitionPoint t.knots fun k => decide (k.position < p) :=
    partitionPoint_shift d t fun q => decide (q < p)
  have hget (i : ℕ) : (t.shift d).knots[i]? = t.knots[i]?.map (Knot.shift d) := Array.getElem?_map
  unfold valueAt
  rw [first_shift, Knot.position_shift]
  by_cases hfirst : p < t.first.position
  · rw [if_pos hfirst, if_pos hfirst]
    exact advance_add t.first.change origin d p
  rw [if_neg hfirst, if_neg hfirst]
  simp only [hpoint, hget, before_shift d t _ _ (partitionPoint_le ..), extend_shift]
  cases t.knots[partitionPoint t.knots fun k => decide (k.position < p)]? with
  | none => rfl
  | some k =>
    rw [Option.map_some]
    dsimp only
    rw [Knot.position_shift, ite_add]
    rfl

theorem resolveFrom_shift (d : ℚ) (k : Knot ρ ℚ) (cs : List ρ) :
    resolveFrom (k.shift d) cs = (resolveFrom k cs).map (Knot.shift d) := by
  induction cs generalizing k with
  | nil => rfl
  | cons c cs ih =>
    have hnext : (⟨c, (k.shift d).extend (Rate.position c)⟩ : Knot ρ ℚ) =
        Knot.shift d ⟨c, k.extend (Rate.position c)⟩ :=
      congrArg (Knot.mk c) (extend_shift d k _)
    rw [resolveFrom, resolveFrom, List.map_cons, hnext, ih]

/-- Resolving from a translated origin gives the translated timeline. -/
theorem resolve_shift (d origin : ℚ) (c : ρ) (cs : List ρ) :
    resolve (origin + d) c cs = (resolve origin c cs).shift d := by
  have hfirst : firstKnot (origin + d) c = (firstKnot origin c).shift d :=
    congrArg (Knot.mk c) (advance_add c origin d _)
  have hknots : (resolve (origin + d) c cs).knots = ((resolve origin c cs).shift d).knots := by
    simp only [resolve, shift, hfirst, resolveFrom_shift, List.map_toArray, List.map_cons]
  exact (mk.injEq ..).mpr hknots

end Timeline

namespace BpmTimeline

/-- All seconds are changed by `d`, and so is the wave offset, the other way. -/
def shift (d : ℚ) (t : BpmTimeline ℚ) : BpmTimeline ℚ where
  toTimeline := t.toTimeline.shift d
  waveOffset := t.waveOffset - d

theorem seconds_shift (d : ℚ) (t : BpmTimeline ℚ) (beat : ℚ) :
    (t.shift d).seconds beat = t.seconds beat + d := by
  have horigin : -(t.waveOffset - d) = -t.waveOffset + d := by ring
  rw [seconds, seconds, ← t.toTimeline.valueAt_shift, ← horigin]
  rfl

theorem bpmAt_shift (d : ℚ) (t : BpmTimeline ℚ) (beat : ℚ) : (t.shift d).bpmAt beat = t.bpmAt beat := by
  have hpoint : partitionPoint (t.shift d).knots (fun k => decide (k.position ≤ beat)) =
      partitionPoint t.knots fun k => decide (k.position ≤ beat) :=
    t.toTimeline.partitionPoint_shift d fun q => decide (q ≤ beat)
  have hbefore := t.toTimeline.before_shift d _ ((partitionPoint_le ..).trans_eq (Array.size_map ..).symm)
    (partitionPoint_le t.knots fun k => decide (k.position ≤ beat))
  unfold bpmAt
  simp only [hpoint]
  exact congrArg (fun k => k.change.bpm) hbefore

/-- Another wave offset translates the timeline of the same changes. -/
theorem ofChanges?_sub (cs : List (BpmChange ℚ)) (waveOffset d : ℚ) :
    ofChanges? cs (waveOffset - d) = (ofChanges? cs waveOffset).map (shift d) := by
  have horigin : -(waveOffset - d) = -waveOffset + d := by ring
  unfold ofChanges?
  cases sort cs with
  | nil => rfl
  | cons c cs =>
    dsimp only
    rw [horigin, Timeline.resolve_shift]
    rfl

end BpmTimeline

/-! ## Songs -/

/-- The point with its seconds changed by `d`. -/
def Point.shift (d : ℚ) (p : Point ℚ) : Point ℚ := { p with seconds := p.seconds + d }

namespace Song

/-- All seconds are changed by `d`, and so are the wave offsets, the other way. -/
def shift (d : ℚ) (s : Song ℚ) : Song ℚ where
  info := { s.info with waveOffset := s.info.waveOffset - d }
  notes := s.notes.map (Note.map (Point.shift d))
  tempo := s.tempo.shift d
  measures := s.measures
  measureSeconds := s.measureSeconds.map (· + d)
  length_measureSeconds := (List.length_map _).trans s.length_measureSeconds

theorem measureAnchors_shift (d : ℚ) (s : Song ℚ) : (s.shift d).measureAnchors =
    s.measureAnchors.map fun a => { a with seconds := a.seconds + d } := by
  rw [measureAnchors, measureAnchors, shift, List.zip_map_right, List.map_map, List.map_map]
  rfl

end Song

theorem Note.firstTime_map_shift (d : ℚ) (n : Note (Point ℚ)) :
    (n.map (Point.shift d)).firstTime = n.firstTime + d := by
  cases n <;> rfl

/-- What was collected, with another wave offset. -/
def Collected.shift (d : ℚ) (c : Collected ℚ) : Collected ℚ :=
  { c with info := { c.info with waveOffset := c.info.waveOffset - d } }

namespace Chart

variable (prompter : Prompter ℚ) (measures : MeasureTimeline ℚ)

/-- A translation keeps the order of notes. -/
theorem placeNotes_shift (d : ℚ) (tempo : BpmTimeline ℚ) (notes : List (Note (Mark ℚ))) :
    placeNotes (tempo.shift d) notes = (placeNotes tempo notes).map (Note.map (Point.shift d)) := by
  have horder (a b : Note (Point ℚ)) : Scalar.totalLE a.firstTime b.firstTime =
      Scalar.totalLE (a.map (Point.shift d)).firstTime (b.map (Point.shift d)).firstTime := by
    rw [Note.firstTime_map_shift, Note.firstTime_map_shift]
    exact decide_eq_decide.2 (add_le_add_iff_right d).symm
  have hplace (n : Note (Mark ℚ)) : (n.map fun m => (⟨m, (tempo.shift d).seconds m.beat⟩ : Point ℚ)) =
      (n.map fun m => (⟨m, tempo.seconds m.beat⟩ : Point ℚ)).map (Point.shift d) := by
    cases n <;> simp only [Note.map, Point.shift, BpmTimeline.seconds_shift]
  have hsort (placed : List (Note (Point ℚ))) :
      (placed.mergeSort fun a b => Scalar.totalLE a.firstTime b.firstTime).map (Note.map (Point.shift d)) =
        (placed.map (Note.map (Point.shift d))).mergeSort
          fun a b => Scalar.totalLE a.firstTime b.firstTime :=
    List.map_mergeSort fun a _ b _ => horder a b
  have hplaced : notes.map (Note.map fun m => (⟨m, (tempo.shift d).seconds m.beat⟩ : Point ℚ)) =
      (notes.map (Note.map fun m => (⟨m, tempo.seconds m.beat⟩ : Point ℚ))).map
        (Note.map (Point.shift d)) := by
    rw [List.map_map]
    exact List.map_congr_left fun n _ => hplace n
  rw [placeNotes, placeNotes, hsort, hplaced]

/-- The changes of beats per measure are translated with the tempo. -/
theorem placeMeasures_shift (d : ℚ) (tempo : BpmTimeline ℚ) :
    placeMeasures (tempo.shift d) measures = (placeMeasures tempo measures).map (· + d) := by
  rw [placeMeasures, placeMeasures, List.map_map]
  exact List.map_congr_left fun k _ => tempo.seconds_shift d k.value

theorem assembleSong_shift (d : ℚ) (c : Collected ℚ) :
    assembleSong prompter measures (c.shift d) = Song.shift d <$> assembleSong prompter measures c := by
  unfold assembleSong
  simp only [map_bind]
  refine bind_congr fun placed => bind_congr fun defs => bind_congr fun changes => ?_
  have htempo : BpmTimeline.ofChanges? changes (c.shift d).info.waveOffset =
      (BpmTimeline.ofChanges? changes c.info.waveOffset).map (BpmTimeline.shift d) :=
    BpmTimeline.ofChanges?_sub changes c.info.waveOffset d
  rw [htempo]
  cases BpmTimeline.ofChanges? changes c.info.waveOffset with
  | none => rfl
  | some tempo =>
    rw [Option.map_some]
    dsimp only
    rw [map_bind]
    refine bind_congr fun _ => ?_
    simp only [map_pure, placeNotes_shift, placeMeasures_shift, Song.shift, List.map_toArray]
    rfl

/-! ## The reading token by token -/

/-- A wave offset counts from the difference to the one before. -/
theorem collect_waveOffset (c : Collected ℚ) (v v' : Finite ℚ) (span : Span) :
    collect prompter measures c ⟨.waveOffset v', span⟩ =
      Collected.shift (v.val - v'.val) <$> collect prompter measures c ⟨.waveOffset v, span⟩ := by
  have hvalue : v.val - (v.val - v'.val) = v'.val := sub_sub_cancel ..
  change pure _ = Collected.shift (v.val - v'.val) <$> pure _
  rw [map_pure, Collected.shift, hvalue]

/-- No other token looks at the wave offset. -/
theorem collect_shift (d : ℚ) (c : Collected ℚ) {t : Spanned (Token ℚ)}
    (h : Token.waveOffset? t.content = none) :
    collect prompter measures (c.shift d) t = Collected.shift d <$> collect prompter measures c t := by
  obtain ⟨content, span⟩ := t
  cases content with
  | waveOffset value => cases h
  | bpmDefinition id value =>
    unfold collect
    rw [map_bind]
    exact bind_congr fun defined => rfl
  | message track channel payload => cases channel <;> rfl
  | _ => rfl

theorem foldlM_collect_shift (d : ℚ) (c : Collected ℚ) {ts : List (Spanned (Token ℚ))}
    (h : ∀ t ∈ ts, Token.waveOffset? t.content = none) :
    ts.foldlM (collect prompter measures) (c.shift d) =
      Collected.shift d <$> ts.foldlM (collect prompter measures) c := by
  induction ts generalizing c with
  | nil => rfl
  | cons t ts ih =>
    obtain ⟨ht, hts⟩ := List.forall_mem_cons.1 h
    rw [List.foldlM_cons, List.foldlM_cons, collect_shift prompter measures d c ht, bind_map_left,
      map_bind]
    exact bind_congr fun c' => ih c' hts

variable {before after : List (Spanned (Token ℚ))}

/-- Another value of the last wave offset translates the song. -/
theorem resolve_waveOffset (hafter : ∀ t ∈ after, Token.waveOffset? t.content = none) (v v' : Finite ℚ)
    (span : Span) : resolve prompter (before ++ ⟨.waveOffset v', span⟩ :: after) =
      Song.shift (v.val - v'.val) <$> resolve prompter (before ++ ⟨.waveOffset v, span⟩ :: after) := by
  have hbeats (v : Finite ℚ) :
      (before ++ ⟨.waveOffset v, span⟩ :: after).foldlM (collectBeats prompter) ∅ =
        (before ++ after).foldlM (collectBeats prompter) ∅ := by
    simp only [List.foldlM_append, List.foldlM_cons, collectBeats, pure_bind]
  unfold resolve
  rw [hbeats, hbeats, map_bind]
  refine bind_congr fun beats => ?_
  dsimp only
  rw [map_bind, List.foldlM_append, List.foldlM_append, bind_assoc, bind_assoc]
  refine bind_congr fun c => ?_
  rw [List.foldlM_cons, List.foldlM_cons, bind_assoc, bind_assoc,
    collect_waveOffset prompter _ c v v' span, bind_map_left]
  refine bind_congr fun c' => ?_
  rw [foldlM_collect_shift prompter _ _ _ hafter, bind_map_left]
  exact bind_congr fun c'' => assembleSong_shift prompter _ _ c''

/-- The chart with its song translated. -/
def shift (d : ℚ) (chart : Chart ℚ) : Chart ℚ := { chart with song := chart.song.shift d }

theorem ofTokens_of_map {d : ℚ} {ts ts' : List (Spanned (Token ℚ))}
    (h : resolve prompter ts' = Song.shift d <$> resolve prompter ts) :
    ofTokens prompter ts' =
      ⟨(ofTokens prompter ts).prompts, (ofTokens prompter ts).result.map (shift d)⟩ := by
  unfold ofTokens
  rw [h, ExceptT.run_map, StateT.run_map]
  rcases (resolve prompter ts).run.run Log.empty with ⟨_ | song, log⟩ <;> rfl

/-- The wave offset is a translation.  With another one, the changes of a tempo stay where they are, and
their seconds and those of any beat are changed by the difference.  So a chart with another value of its
last wave offset asks the same questions and stops with the same error, or it has the same warnings and the
same song, with all seconds changed by the difference. -/
theorem ofTokens_waveOffset :
    (∀ (cs : List (BpmChange ℚ)), cs ≠ [] → ∀ w w' : ℚ, ∃ t t' : BpmTimeline ℚ,
      BpmTimeline.ofChanges? cs w = some t ∧ BpmTimeline.ofChanges? cs w' = some t' ∧
        (t'.knots.toList.map fun k => (k.change, k.value)) =
          (t.knots.toList.map fun k => (k.change, k.value + (w - w'))) ∧
        ∀ beat, t'.seconds beat = t.seconds beat + (w - w') ∧ t'.bpmAt beat = t.bpmAt beat) ∧
    (∀ (prompter : Prompter ℚ) (before after : List (Spanned (Token ℚ))) (v v' : Finite ℚ) (span : Span),
      (∀ t ∈ after, Token.waveOffset? t.content = none) →
        ofTokens prompter (before ++ ⟨.waveOffset v', span⟩ :: after) =
          ⟨(ofTokens prompter (before ++ ⟨.waveOffset v, span⟩ :: after)).prompts,
            (ofTokens prompter (before ++ ⟨.waveOffset v, span⟩ :: after)).result.map
              (shift (v.val - v'.val))⟩) ∧
    ∀ (song : Song ℚ) (d : ℚ), (song.shift d).measureAnchors =
      song.measureAnchors.map fun a => { a with seconds := a.seconds + d } := by
  refine ⟨fun cs hcs w w' => ?_, fun prompter before after v v' span hafter =>
    ofTokens_of_map prompter (resolve_waveOffset prompter hafter v v' span),
    fun song d => song.measureAnchors_shift d⟩
  obtain ⟨t, ht, -, -, -⟩ := BpmTimeline.exists_resolved hcs w
  have ht' : BpmTimeline.ofChanges? cs w' = some (t.shift (w - w')) := by
    rw [← sub_sub_cancel w w', BpmTimeline.ofChanges?_sub, ht, sub_sub_cancel]
    rfl
  have hknots : (t.shift (w - w')).knots.toList = t.knots.toList.map (Knot.shift (w - w')) :=
    Array.toList_map
  refine ⟨t, t.shift (w - w'), ht, ht', ?_, fun beat => ⟨t.seconds_shift _ beat, t.bpmAt_shift _ beat⟩⟩
  rw [hknots, List.map_map]
  rfl

/-- Two wave offsets, of which the second one counts, between two changes of tempo; a tap and a slide.  With
another second one, all seconds are changed by the difference, those of a single change of tempo too. -/
theorem ofTokens_waveOffset_of_two :
    let before : List (Spanned (Token ℚ)) := [⟨.title "Offsets", ⟨0, 9⟩⟩, ⟨.waveOffset ⟨3, rfl⟩, ⟨10, 19⟩⟩,
      ⟨.bpmDefinition ⟨1⟩ ⟨120, rfl⟩, ⟨20, 29⟩⟩, ⟨.message ⟨0⟩ .bpmChange "01", ⟨30, 39⟩⟩]
    let after : List (Spanned (Token ℚ)) := [⟨.bpmDefinition ⟨2⟩ ⟨90, rfl⟩, ⟨50, 59⟩⟩,
      ⟨.message ⟨1⟩ .bpmChange "0002", ⟨60, 69⟩⟩, ⟨.message ⟨1⟩ (.tap 2) "14", ⟨70, 79⟩⟩,
      ⟨.message ⟨2⟩ (.slide 4 0) "2413", ⟨80, 89⟩⟩, ⟨.message ⟨3⟩ (.slide 4 0) "23", ⟨90, 99⟩⟩]
    let change : BpmChange ℚ := ⟨⟨1⟩, ⟨⟨120, rfl⟩, by decide⟩, 0⟩
    (∃ chart, (ofTokens (.always .halt) (before ++ ⟨.waveOffset ⟨10, rfl⟩, ⟨40, 49⟩⟩ :: after)).result =
        .ok chart ∧ chart.song.notes.size = 2 ∧
      (ofTokens (.always .halt) (before ++ ⟨.waveOffset ⟨4, rfl⟩, ⟨40, 49⟩⟩ :: after)).result =
        .ok (chart.shift (10 - 4))) ∧
    ∃ t t', BpmTimeline.ofChanges? [change] 10 = some t ∧ BpmTimeline.ofChanges? [change] 4 = some t' ∧
      t'.seconds 8 = t.seconds 8 + (10 - 4) := by
  intro before after change
  obtain ⟨htempo, hreading, -⟩ := ofTokens_waveOffset
  constructor
  · obtain ⟨chart, hok, hsize⟩ := exists_ofTokens_of_check (.always .halt)
      (before ++ ⟨.waveOffset ⟨10, rfl⟩, ⟨40, 49⟩⟩ :: after)
      (fun chart => decide (chart.song.notes.size = 2)) (by
        unfold ofTokens resolve assembleSong BpmTimeline.ofChanges?
        rw [BpmTimeline.sort_eq_insertionSort, placeNotes_eq_insertionSort]
        decide +kernel)
    have hafter : ∀ t ∈ after, Token.waveOffset? t.content = none := by decide
    rw [hreading (.always .halt) before after ⟨10, rfl⟩ ⟨4, rfl⟩ ⟨40, 49⟩ hafter, hok]
    exact ⟨chart, rfl, of_decide_eq_true hsize, rfl⟩
  · obtain ⟨t, t', ht, ht', -, hbeats⟩ := htempo [change] (List.cons_ne_nil _ _) 10 4
    exact ⟨t, t', ht, ht', (hbeats 8).1⟩

end Chart

end RhythmChart
