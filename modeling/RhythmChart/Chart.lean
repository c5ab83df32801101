import RhythmChart.Assembly
import RhythmChart.Song
import RhythmChart.Tempo
import RhythmChart.Token

/-!
# Reading a chart

`Chart.ofTokens` resolves tokens into a song.  It reads them twice: first for the beats of measures,
which any position needs (`Chart.collectBeats`), then for all the rest, token by token (`Chart.collect`).
What the second reading collects is put together at the end: BPM definitions and their placements make the
tempo, which then places the changes of measures and the notes on seconds.  `Chart.read` does this for a
text.
-/

namespace RhythmChart

/-- A song and the warnings that came up. -/
structure Chart (α : Type) [Scalar α] where
  song : Song α
  warnings : List (Spanned Warning)
  deriving DecidableEq

/-- What reading a chart comes to. -/
structure Reading (ε α : Type) [Scalar α] where
  prompts : List (Prompt α)
  result : Except ε (Chart α)

variable {α : Type} [Scalar α]

/-- What is collected from the tokens before it is put together. -/
structure Collected (α : Type) [Scalar α] where
  info : SongInfo α
  defined : Kept BpmId (Finite α)
  placements : Array (Declaration BpmId (Placement α))
  lines : Array (LaneLine α)

/-- Nothing.  The wave offset is zero where a chart says nothing about it. -/
def Collected.empty : Collected α := ⟨⟨none, none, none, ((0 : Nat) : α)⟩, ∅, #[], #[]⟩

namespace Chart

/-- Collects the beats of measures that one token declares. -/
def collectBeats (prompter : Prompter α) (kept : Kept Track (Finite α)) (t : Spanned (Token α)) :
    Settling α (Kept Track (Finite α)) :=
  match t.content with
  | .beatsPerMeasure track value => declare prompter .beatsPerMeasure kept ⟨track, value, t.span⟩
  | _ => return kept

/-- The timeline of the beats per measure that were kept. -/
def measureTimeline (kept : Kept Track (Finite α)) : MeasureTimeline α :=
  MeasureTimeline.ofChanges
    (kept.toList.map fun (track, beats) => ⟨(track.number : α), beats.content⟩)

/-- The placements of a message on the BPM channel, one for each object. -/
def placementsOf (span : Span) (slots : List (Slot α)) : List (Declaration BpmId (Placement α)) :=
  slots.map fun s => ⟨s.bpmId, ⟨s.time, s.beat⟩, span⟩

/-- Collects one token.  Beats of measures are known by now, and headers and remarks say nothing. -/
def collect (prompter : Prompter α) (measures : MeasureTimeline α) (c : Collected α)
    (t : Spanned (Token α)) : Settling α (Collected α) := do
  match t.content with
  | .title text => return { c with info := { c.info with title := some text } }
  | .artist text => return { c with info := { c.info with artist := some text } }
  | .designer text => return { c with info := { c.info with designer := some text } }
  | .waveOffset value => return { c with info := { c.info with waveOffset := value.val } }
  | .bpmDefinition id value =>
    let defined ← declare prompter .bpmDefinition c.defined ⟨id, value, t.span⟩
    return { c with defined }
  | .message track channel payload =>
    let slots := Slot.decode measures track payload.toList
    match channel with
    | .bpmChange => return { c with placements := c.placements ++ placementsOf t.span slots }
    | .tap lane => return { c with lines := c.lines.push (.taps lane slots) }
    | .slide lane channel => return { c with lines := c.lines.push (.slides lane channel slots t.span) }
    | .beatsPerMeasure | .unsupported _ => return c
  | .beatsPerMeasure _ _ | .header _ _ | .remark _ => return c

/-- The seconds of the changes of beats per measure, in their order. -/
def placeMeasures (tempo : BpmTimeline α) (measures : MeasureTimeline α) : List α :=
  measures.knots.toList.map fun k => tempo.seconds k.value

@[simp]
theorem length_placeMeasures (tempo : BpmTimeline α) (measures : MeasureTimeline α) :
    (placeMeasures tempo measures).length = measures.knots.size := by
  simp [placeMeasures]

/-- Notes placed on seconds, in the order of their first time; those at one time keep their order. -/
def placeNotes (tempo : BpmTimeline α) (notes : List (Note (Mark α))) : List (Note (Point α)) :=
  (notes.map (Note.map fun m => ⟨m, tempo.seconds m.beat⟩)).mergeSort
    fun a b => Scalar.totalLE a.firstTime b.firstTime

/-- Puts together what was collected. -/
def assembleSong (prompter : Prompter α) (measures : MeasureTimeline α) (c : Collected α) :
    Settling α (Song α) := do
  let placed ← settlePlacements prompter c.defined c.placements.toList
  let changes ← settleChanges (← definitions c.defined) placed
  match BpmTimeline.ofChanges? changes c.info.waveOffset with
  | none => stop .noBpmDefinition ⟨0, 0⟩
  | some tempo =>
    let assembly := assemble c.lines.toList
    warn assembly.warnings
    return {
      info := c.info
      notes := (placeNotes tempo assembly.notes).toArray
      tempo
      measures
      measureSeconds := placeMeasures tempo measures }

/-- Resolves tokens into a song. -/
def resolve (prompter : Prompter α) (ts : List (Spanned (Token α))) : Settling α (Song α) := do
  let beats ← ts.foldlM (collectBeats prompter) ∅
  let measures := measureTimeline beats
  assembleSong prompter measures (← ts.foldlM (collect prompter measures) .empty)

/-- What the tokens of a chart come to. -/
def ofTokens (prompter : Prompter α) (ts : List (Spanned (Token α))) :
    Reading (Spanned ParseError) α :=
  let (result, log) := (resolve prompter ts).run.run Log.empty
  { prompts := log.prompts.reverse
    result := result.map fun song => ⟨song, log.warnings.reverse⟩ }

/-- What the text of a chart comes to. -/
def read (prompter : Prompter Float) (source : List Char) : Reading ChartError Float :=
  match Token.scan source with
  | .error e => { prompts := [], result := .error (.lex e) }
  | .ok ts =>
    let reading := ofTokens prompter ts
    { prompts := reading.prompts, result := reading.result.mapError .parse }

end Chart

end RhythmChart
