import RhythmChart.Decimal
import RhythmChart.Source.Cursor

/-!
# Tokens

A token is what one line of a chart says.  `Token.ofLine` tells what a trimmed line says by its shape.  A line of a
recognised shape whose value is malformed is a fault; a line of no recognised shape is a header or a remark.
`Token.scan` reads all lines of a text that are not blank.
-/

namespace RhythmChart

/-- What one line says.  A line without a number sign in front is a remark, a line with one that has no
other meaning is a header. -/
inductive Token (α : Type) [Scalar α] where
  | artist (text : String)
  | designer (text : String)
  | title (text : String)
  /-- The seconds from the start of the audio to the beat zero. -/
  | waveOffset (value : Finite α)
  /-- The beats of a measure, from this track on. -/
  | beatsPerMeasure (track : Track) (value : Finite α)
  | bpmDefinition (id : BpmId) (value : Finite α)
  /-- The slots of a track on a channel, two characters a slot. -/
  | message (track : Track) (channel : Channel) (payload : String)
  /-- A command without a meaning here. -/
  | header (name args : String)
  /-- A line that is no command. -/
  | remark (text : String)

/-! ## Reading a line -/

namespace Token

/-- The name and the value of a BPM definition: before the first colon, `BPM` in either case and exactly
two characters. -/
def bpmShape? (command : List Char) : Option (List Char × List Char) :=
  match Text.cut? (· = ':') command with
  | some (head, value) =>
    match head with
    | [b, p, m, x, y] => if Text.upper [b, p, m] = ['B', 'P', 'M'] then some ([x, y], value) else none
    | _ => none
  | none => none

/-- The track, the channel text and the trimmed payload of a message: before the first colon, three
digits and at least one letter or digit. -/
def messageShape? (command : List Char) : Option (Track × List Char × List Char) :=
  match Text.cut? (· = ':') command with
  | some (head, payload) =>
    match head with
    | a :: b :: c :: channel =>
      if [a, b, c].all Char.isDigit ∧ channel ≠ [] ∧ channel.all Char.isAlphanum then
        some (⟨Decimal.ofDigits [a, b, c]⟩, channel, Text.trim payload)
      else none
    | _ => none
  | none => none

/-- The name of a command up to its first blank, and its trimmed arguments. -/
def nameAndArgs (command : List Char) : List Char × List Char :=
  match Text.cut? Text.isBlank command with
  | some (name, args) => (name, Text.trim args)
  | none => (command, [])

/-- A finite number, or the fault that it is missing. -/
def number (what : String) (v : Option (Finite Float)) : Except LineFault (Finite Float) :=
  match v with
  | some v => .ok v
  | none => .error (.expected what)

/-- A BPM definition.  Its name is checked before its value. -/
def ofBpm (id value : List Char) : Except LineFault (Token Float) :=
  match BpmId.ofText? id with
  | some id => (number "decimal BPM" (Decimal.finite? value)).map (.bpmDefinition id)
  | none => .error (.notAnId (String.ofList id))

/-- A command that is neither a BPM definition nor named: a message, or else a header. -/
def ofOther (command : List Char) : Except LineFault (Token Float) :=
  let (name, args) := nameAndArgs command
  let header := .header (String.ofList name) (String.ofList args)
  match messageShape? command with
  | some (track, channel, payload) =>
    if channel = ['0', '2'] then
      (number "decimal beats per measure" (Decimal.finite? payload)).map (.beatsPerMeasure track)
    else if payload ≠ [] ∧ payload.all Char.isAlphanum then
      match Channel.ofText? channel with
      | some channel => .ok (.message track channel (String.ofList payload))
      | none => .ok header
    else .ok header
  | none => .ok header

def ofCommand (command : List Char) : Except LineFault (Token Float) :=
  match bpmShape? command with
  | some (id, value) => ofBpm id value
  | none =>
    let (name, args) := nameAndArgs command
    let argument := String.ofList (Text.unquote args)
    let name := String.ofList (Text.upper name)
    if name = "WAVEOFFSET" then
      (number "decimal seconds" ((Text.firstWord? args).bind Decimal.finite?)).map .waveOffset
    else if name = "TITLE" then .ok (.title argument)
    else if name = "ARTIST" then .ok (.artist argument)
    else if name = "DESIGNER" then .ok (.designer argument)
    else ofOther command

def ofLine : List Char → Except LineFault (Token Float)
  | '#' :: command => ofCommand command
  | line => .ok (.remark (String.ofList line))

/-- A line's token with the line's place, or its fault with the line's number and place. -/
def read (l : Line) : Except (Spanned LexError) (Spanned (Token Float)) :=
  match ofLine l.text with
  | .ok t => .ok ⟨t, l.span⟩
  | .error fault => .error ⟨⟨l.number, fault⟩, l.span⟩

/-- The tokens of all lines that are not blank, or the error of the first malformed one. -/
def scan (source : List Char) : Except (Spanned LexError) (List (Spanned (Token Float))) :=
  ((Cursor.ofText source).lines.filter (!·.text.isEmpty)).mapM read

end Token

end RhythmChart
