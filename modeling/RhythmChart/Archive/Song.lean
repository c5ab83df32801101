import RhythmChart.Archive.Issue
import RhythmChart.Chart

/-!
# Archived songs

A chart as data and back.  A change of beats per measure is written together with its beat and its seconds,
and what is read is taken as it is.
-/

namespace RhythmChart.Archive

variable {α : Type} [Scalar α]

def ofInfo (i : SongInfo α) : Datum α :=
  .record
    [("title", .ofOption .text i.title), ("artist", .ofOption .text i.artist),
     ("designer", .ofOption .text i.designer), ("wave_offset", .ofScalar i.waveOffset)]

def info? (d : Datum α) : Option (SongInfo α) := do
  return {
    title := ← d.get? (Datum.option? Datum.text?) "title"
    artist := ← d.get? (Datum.option? Datum.text?) "artist"
    designer := ← d.get? (Datum.option? Datum.text?) "designer"
    waveOffset := ← d.get? Datum.scalar? "wave_offset" }

def ofPoint (p : Point α) : Datum α :=
  .record
    [("lane", .nat p.lane), ("width", .nat p.width), ("beat", .ofScalar p.beat),
     ("seconds", .ofScalar p.seconds)]

def point? (d : Datum α) : Option (Point α) := do
  return {
    lane := ← d.get? Datum.nat? "lane"
    width := ← d.get? Datum.nat? "width"
    beat := ← d.get? Datum.scalar? "beat"
    seconds := ← d.get? Datum.scalar? "seconds" }

def ofNote : Note (Point α) → Datum α
  | .tap point => .variant "Tap" (.record [("point", ofPoint point)])
  | .slide channel start stop =>
    .variant "Slide"
      (.record [("channel", .nat channel), ("start", ofPoint start), ("end", ofPoint stop)])

def note? (d : Datum α) : Option (Note (Point α)) := do
  let (name, d) ← d.variant?
  if name = "Tap" then return .tap (← d.get? point? "point")
  else if name = "Slide" then
    return .slide (← d.get? Datum.nat? "channel") (← d.get? point? "start") (← d.get? point? "end")
  else none

def ofBpmKnot (k : Knot (BpmChange α) α) : Datum α :=
  .record
    [("id", ofBpmId k.change.id), ("bpm", .ofScalar k.change.bpm.val),
     ("beat", .ofScalar k.change.beat), ("seconds", .ofScalar k.value)]

def bpmKnot? (d : Datum α) : Option (Knot (BpmChange α) α) := do
  let id ← d.get? bpmId? "id"
  let bpm ← d.get? Datum.positive? "bpm"
  let beat ← d.get? Datum.scalar? "beat"
  let seconds ← d.get? Datum.scalar? "seconds"
  return ⟨⟨id, bpm, beat⟩, seconds⟩

def ofMeasureAnchor (a : MeasureAnchor α) : Datum α :=
  .record
    [("measure", .ofScalar a.measure), ("beats_per_measure", .ofScalar a.beats.val),
     ("beat", .ofScalar a.beat), ("seconds", .ofScalar a.seconds)]

def measureAnchor? (d : Datum α) : Option (MeasureAnchor α) := do
  let measure ← d.get? Datum.scalar? "measure"
  let beats ← d.get? Datum.finite? "beats_per_measure"
  let beat ← d.get? Datum.scalar? "beat"
  let seconds ← d.get? Datum.scalar? "seconds"
  return ⟨⟨measure, beats⟩, beat, seconds⟩

/-- A timeline of these knots, if there is one. -/
def timeline? {ρ : Type} (knots : List (Knot ρ α)) : Option (Timeline ρ α) :=
  if h : 0 < knots.toArray.size then some ⟨knots.toArray, h⟩ else none

def ofTempo (t : BpmTimeline α) : Datum α :=
  .record
    [("anchors", .ofList ofBpmKnot t.knots.toList), ("wave_offset", .ofScalar t.waveOffset)]

def tempo? (d : Datum α) : Option (BpmTimeline α) := do
  let t ← timeline? (← d.get? (Datum.list? bpmKnot?) "anchors")
  return ⟨t, ← d.get? Datum.scalar? "wave_offset"⟩

def ofMeasures (anchors : List (MeasureAnchor α)) : Datum α :=
  .record [("anchors", .ofList ofMeasureAnchor anchors)]

def measures? (d : Datum α) : Option (List (MeasureAnchor α)) :=
  d.get? (Datum.list? measureAnchor?) "anchors"

def ofSong (s : Song α) : Datum α :=
  .record
    [("info", ofInfo s.info), ("notes", .ofList ofNote s.notes.toList),
     ("bpm_timeline", ofTempo s.tempo), ("measure_timeline", ofMeasures s.measureAnchors)]

/-- The song whose measures change like this, if there is a change. -/
def songWith? (info : SongInfo α) (notes : List (Note (Point α))) (tempo : BpmTimeline α)
    (anchors : List (MeasureAnchor α)) : Option (Song α) :=
  if h : 0 < (anchors.map MeasureAnchor.knot).toArray.size then
    some {
      info
      notes := notes.toArray
      tempo
      measures := ⟨(anchors.map MeasureAnchor.knot).toArray, h⟩
      measureSeconds := anchors.map MeasureAnchor.seconds }
  else none

def song? (d : Datum α) : Option (Song α) := do
  let info ← d.get? info? "info"
  let notes ← d.get? (Datum.list? note?) "notes"
  let tempo ← d.get? tempo? "bpm_timeline"
  songWith? info notes tempo (← d.get? measures? "measure_timeline")

def ofChart (c : Chart α) : Datum α :=
  .record [("song", ofSong c.song), ("warnings", .ofList ofLocatedWarning c.warnings)]

def chart? (d : Datum α) : Option (Chart α) := do
  return ⟨← d.get? song? "song", ← d.get? (Datum.list? locatedWarning?) "warnings"⟩

/-- The chart is the same after it was written and read. -/
def keepsChart [DecidableEq α] (c : Chart α) : Bool := decide (chart? (ofChart c) = some c)

/-- The error is the same after it was written, among data over `α`, and read. -/
def keepsError (α : Type) (e : ChartError) : Bool :=
  decide (error? (ofError e : Datum α) = some e)

end RhythmChart.Archive
