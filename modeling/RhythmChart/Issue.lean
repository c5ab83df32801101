import RhythmChart.Slot

/-!
# Errors and warnings

An error ends the reading of a chart, a warning does not.  Each is a cause, `message` is its wording,
and its place in the text is kept apart in a `Spanned`.  A report is what a reader of the chart is shown about an
issue: how severe it is, a title, the place in the file, and a label for that place.
-/

namespace RhythmChart

inductive LineFault where
  | expected (what : String)
  | notAnId (text : String)
  deriving DecidableEq

/-- A fault, with the number of its line. -/
structure LexError where
  line : Nat
  fault : LineFault
  deriving DecidableEq

def LexError.message (e : LexError) : String :=
  match e.fault with
  | .expected what => "expected " ++ what ++ ", but not found at line " ++ toString e.line
  | .notAnId text =>
    "expected id format is 2 digits of base 36 (`0-9A-Za-z`), but found `" ++ text ++ "` at line " ++
      toString e.line

instance : ToString LexError where
  toString := LexError.message

/-- Why tokens do not make a song. -/
inductive ParseError where
  | undefinedBpm (id : BpmId)
  | nonPositiveBpm (id : BpmId)
  | noBpmDefinition
  | halted
  deriving DecidableEq

def ParseError.message : ParseError → String
  | .undefinedBpm id => "undefined BPM: #BPM" ++ toString id
  | .nonPositiveBpm id => "non-positive BPM: #BPM" ++ toString id
  | .noBpmDefinition => "no BPM definition found"
  | .halted => "parsing halted by the prompter"

instance : ToString ParseError where
  toString := ParseError.message

/-- An oddity that does not end the reading. -/
inductive Warning where
  | unclosedSlide (channel : Nat) (time : SlotTime)
  | unmatchedSlideEnd (channel : Nat) (time : SlotTime)
  | unplacedBpm (id : BpmId)
  /-- No BPM is placed, and this one counts from the beginning. -/
  | implicitInitialBpm (id : BpmId)
  | duplicateBpmDefinition (id : BpmId)
  | duplicateBpmPlacement (id : BpmId)
  | duplicateBeatsPerMeasure (track : Track)
  deriving DecidableEq

def Warning.message : Warning → String
  | .unclosedSlide channel time =>
    "slide on channel " ++ toString channel ++ " started at " ++ time.debugText ++ " is never closed"
  | .unmatchedSlideEnd channel time =>
    "slide end on channel " ++ toString channel ++ " at " ++ time.debugText ++ " has no start"
  | .unplacedBpm id => "BPM #BPM" ++ toString id ++ " is never placed"
  | .implicitInitialBpm id => "no BPM is placed, using #BPM" ++ toString id ++ " from the beginning"
  | .duplicateBpmDefinition id => "duplicating BPM definition: #BPM" ++ toString id
  | .duplicateBpmPlacement id => "duplicating BPM placement: #BPM" ++ toString id
  | .duplicateBeatsPerMeasure track =>
    "duplicating beats per measure definition: " ++ toString track

instance : ToString Warning where
  toString := Warning.message

/-- Why a text does not make a song: a malformed line, or tokens that do not fit together. -/
inductive ChartError where
  | lex (error : Spanned LexError)
  | parse (error : Spanned ParseError)
  deriving DecidableEq

namespace ChartError

def cause : ChartError → String
  | .lex e => toString e.content
  | .parse e => toString e.content

def located : ChartError → String
  | .lex e => toString e
  | .parse e => toString e

/-- The wording of the error with its stage and its place. -/
def message (e : ChartError) : String :=
  match e with
  | .lex _ => "Error: lex: " ++ e.located
  | .parse _ => "Error: parse: " ++ e.located

def span : ChartError → Span
  | .lex e => e.span
  | .parse e => e.span

end ChartError

/-- The wording of a warning with its stage and its place. -/
def Warning.located (w : Spanned Warning) : String := "Warn: parse: " ++ toString w

/-! ## Reports -/

inductive Severity where
  | warning
  | error
  deriving DecidableEq

inductive Colour where
  | blue
  | red
  deriving DecidableEq

structure Report where
  severity : Severity
  title : String
  file : String
  label : String
  span : Span
  deriving DecidableEq

namespace Report

/-- Warnings are blue, errors are red. -/
def colour (r : Report) : Colour :=
  match r.severity with
  | .warning => .blue
  | .error => .red

/-- What a warning says about its place. -/
def warningLabel : Warning → String
  | .unclosedSlide _ _ => "this slide is dropped"
  | .unmatchedSlideEnd _ _ => "this end is ignored"
  | .unplacedBpm _ => "this BPM is not used"
  | .implicitInitialBpm _ => "this BPM is used from the beat 0"
  | .duplicateBpmDefinition _ => "duplicated here"
  | .duplicateBpmPlacement _ => "duplicated here"
  | .duplicateBeatsPerMeasure _ => "duplicated here"

def ofWarning (file : String) (w : Spanned Warning) : Report where
  severity := .warning
  title := "parse: " ++ w.content.message
  file
  label := warningLabel w.content
  span := w.span

def ofError (file : String) : ChartError → Report
  | .lex e => ⟨.error, "lex: " ++ e.content.message, file, "malformed value", e.span⟩
  | .parse e => ⟨.error, "parse: " ++ e.content.message, file, e.content.message, e.span⟩

end Report

end RhythmChart
