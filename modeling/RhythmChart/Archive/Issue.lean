import RhythmChart.Archive.Datum
import RhythmChart.Issue

/-!
# Archived issues

Errors and warnings as data: a case without arguments is its name, any other case is a record with its
name.
-/

namespace RhythmChart.Archive

variable {α : Type}

def ofBpmId (i : BpmId) : Datum α := .nat i.value.val

def bpmId? (d : Datum α) : Option BpmId := d.nat?.bind BpmId.ofNat?

def ofTrack (t : Track) : Datum α := .nat t.number

def track? (d : Datum α) : Option Track := d.nat?.map Track.mk

def ofTime (t : SlotTime) : Datum α :=
  .record
    [("track", ofTrack t.track), ("numerator", .nat t.numerator),
     ("denominator", .nat t.denominator)]

/-- Reads a time, which must be in lowest terms. -/
def time? (d : Datum α) : Option SlotTime := do
  let track ← d.get? track? "track"
  let numerator ← d.get? Datum.nat? "numerator"
  let denominator ← d.get? Datum.nat? "denominator"
  if h : numerator < denominator ∧ numerator.gcd denominator = 1 then
    return ⟨track, numerator, denominator, h.1, h.2⟩
  else none

def ofLexError (e : LexError) : Datum α :=
  match e.fault with
  | .expected what =>
    .variant "ExpectedToken" (.record [("line", .nat e.line), ("message", .text what)])
  | .notAnId text => .variant "OutOfBase36" (.record [("line", .nat e.line), ("id", .text text)])

def lexError? (d : Datum α) : Option LexError := do
  let (name, d) ← d.variant?
  let line ← d.get? Datum.nat? "line"
  if name = "ExpectedToken" then return ⟨line, .expected (← d.get? Datum.text? "message")⟩
  else if name = "OutOfBase36" then return ⟨line, .notAnId (← d.get? Datum.text? "id")⟩
  else none

def ofParseError : ParseError → Datum α
  | .undefinedBpm id => .variant "UndefinedBpm" (ofBpmId id)
  | .nonPositiveBpm id => .variant "NonPositiveBpm" (ofBpmId id)
  | .noBpmDefinition => .text "NoBpmDefinition"
  | .halted => .text "Halted"

def parseError? : Datum α → Option ParseError
  | .text name =>
    if name = "NoBpmDefinition" then some .noBpmDefinition
    else if name = "Halted" then some .halted
    else none
  | d => do
    let (name, d) ← d.variant?
    if name = "UndefinedBpm" then return .undefinedBpm (← bpmId? d)
    else if name = "NonPositiveBpm" then return .nonPositiveBpm (← bpmId? d)
    else none

def ofError : ChartError → Datum α
  | .lex e => .variant "Lex" (.ofSpanned ofLexError e)
  | .parse e => .variant "Parse" (.ofSpanned ofParseError e)

def error? (d : Datum α) : Option ChartError := do
  let (name, d) ← d.variant?
  if name = "Lex" then return .lex (← d.spanned? lexError?)
  else if name = "Parse" then return .parse (← d.spanned? parseError?)
  else none

def ofSlideEnd (channel : Nat) (time : SlotTime) : Datum α :=
  .record [("channel", .nat channel), ("time", ofTime time)]

def ofWarning : Warning → Datum α
  | .unclosedSlide channel time => .variant "UnclosedSlide" (ofSlideEnd channel time)
  | .unmatchedSlideEnd channel time => .variant "UnmatchedSlideEnd" (ofSlideEnd channel time)
  | .unplacedBpm id => .variant "UnplacedBpm" (ofBpmId id)
  | .implicitInitialBpm id => .variant "ImplicitInitialBpm" (ofBpmId id)
  | .duplicateBpmDefinition id => .variant "DuplicatingBpmDef" (ofBpmId id)
  | .duplicateBpmPlacement id => .variant "DuplicatingBpmPlacement" (ofBpmId id)
  | .duplicateBeatsPerMeasure track => .variant "DuplicatingMeasureDef" (ofTrack track)

def warning? (d : Datum α) : Option Warning := do
  let (name, d) ← d.variant?
  if name = "UnclosedSlide" then
    return .unclosedSlide (← d.get? Datum.nat? "channel") (← d.get? time? "time")
  else if name = "UnmatchedSlideEnd" then
    return .unmatchedSlideEnd (← d.get? Datum.nat? "channel") (← d.get? time? "time")
  else if name = "UnplacedBpm" then return .unplacedBpm (← bpmId? d)
  else if name = "ImplicitInitialBpm" then return .implicitInitialBpm (← bpmId? d)
  else if name = "DuplicatingBpmDef" then return .duplicateBpmDefinition (← bpmId? d)
  else if name = "DuplicatingBpmPlacement" then return .duplicateBpmPlacement (← bpmId? d)
  else if name = "DuplicatingMeasureDef" then return .duplicateBeatsPerMeasure (← track? d)
  else none

def ofLocatedWarning (w : Spanned Warning) : Datum α :=
  .variant "Parse" (.ofSpanned ofWarning w)

def locatedWarning? (d : Datum α) : Option (Spanned Warning) := do
  let (name, d) ← d.variant?
  if name = "Parse" then d.spanned? warning? else none

end RhythmChart.Archive
