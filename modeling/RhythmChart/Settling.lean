import RhythmChart.Issue
import Std.Data.TreeMap

/-!
# Repeated declarations

Three kinds of declaration may repeat in a chart: the beats of a measure, the BPM of a name, and the
placement of a name.  For each repetition a prompter chooses between the value kept so far and the
incoming one, or stops the reading.

Declarations are settled in order, and one value is kept for each key.  The first value of a key is kept
without a question; for each later one the prompter is asked once (`declare`).  The value kept comes with
the place of its declaration.  Calls of the prompter and warnings are logged, also when the reading
stops.
-/

namespace RhythmChart

/-! ## Questions and answers -/

/-- One of the two values of a repeated declaration. -/
inductive Version where
  | older
  | newer
  deriving DecidableEq

/-- What to do about a repeated declaration. -/
inductive Choice where
  /-- Keep one of the two values, with or without a warning. -/
  | keep (version : Version) (warn : Bool)
  | halt
  deriving DecidableEq

/-- A repeated declaration: its key, the value kept so far and the incoming one. -/
inductive Duplication (α : Type) [Scalar α] where
  | bpmDefinition (id : BpmId) (older newer : Finite α)
  | bpmPlacement (id : BpmId) (older newer : SlotTime)
  | beatsPerMeasure (track : Track) (older newer : Finite α)

structure Prompt (α : Type) [Scalar α] where
  duplication : Duplication α
  choice : Choice

/-- A strategy for repeated declarations.  It knows its earlier calls, the latest first. -/
abbrev Prompter (α : Type) [Scalar α] := List (Prompt α) → Duplication α → Choice

variable {α : Type} [Scalar α]

/-- The warning that a repetition gives when one is asked for. -/
def Duplication.warning : Duplication α → Warning
  | .bpmDefinition id _ _ => .duplicateBpmDefinition id
  | .bpmPlacement id _ _ => .duplicateBpmPlacement id
  | .beatsPerMeasure track _ _ => .duplicateBeatsPerMeasure track

namespace Prompter

def always (choice : Choice) : Prompter α := fun _ _ => choice

/-- A list of choices in order, and the incoming value when it is used up. -/
def ofList (choices : List Choice) : Prompter α :=
  fun earlier _ => choices.getD earlier.length (.keep .newer false)

/-- The slower of two BPM definitions, and the incoming value of everything else. -/
def preferSlower : Prompter α
  | _, .bpmDefinition _ older newer =>
    if older.val < newer.val then .keep .older false else .keep .newer false
  | _, _ => .keep .newer false

end Prompter

/-! ## Settling -/

/-- What happened so far, the latest first. -/
structure Log (α : Type) [Scalar α] where
  prompts : List (Prompt α)
  warnings : List (Spanned Warning)

def Log.empty : Log α := ⟨[], []⟩

/-- A computation that logs what happens and may stop with an error. -/
abbrev Settling (α β : Type) [Scalar α] := ExceptT (Spanned ParseError) (StateM (Log α)) β

structure Declaration (κ ν : Type) where
  key : κ
  value : ν
  span : Span

/-- The value kept for each key, with the place of its declaration. -/
abbrev Kept (κ ν : Type) [Ord κ] := Std.TreeMap κ (Spanned ν)

def stop {β : Type} (error : ParseError) (span : Span) : Settling α β := throw ⟨error, span⟩

def warn (warnings : List (Spanned Warning)) : Settling α Unit :=
  modify fun log => { log with warnings := warnings.reverse ++ log.warnings }

/-- Asks the prompter about a repetition at a place: which value to keep. -/
def consult (prompter : Prompter α) (duplication : Duplication α) (span : Span) :
    Settling α Version := do
  let log ← get
  let choice := prompter log.prompts duplication
  set { log with prompts := ⟨duplication, choice⟩ :: log.prompts }
  match choice with
  | .halt => stop .halted span
  | .keep version warned =>
    if warned then warn [⟨duplication.warning, span⟩]
    return version

variable {κ ν : Type} [Ord κ]

/-- Settles one declaration.  `ask key older newer` is the question about a repetition. -/
def declare (prompter : Prompter α) (ask : κ → ν → ν → Duplication α) (kept : Kept κ ν)
    (d : Declaration κ ν) : Settling α (Kept κ ν) := do
  match kept[d.key]? with
  | none => return kept.insert d.key ⟨d.value, d.span⟩
  | some older =>
    match ← consult prompter (ask d.key older.content d.value) d.span with
    | .older => return kept
    | .newer => return kept.insert d.key ⟨d.value, d.span⟩

end RhythmChart
