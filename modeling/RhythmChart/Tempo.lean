import RhythmChart.Settling
import RhythmChart.Slot
import RhythmChart.Timeline

/-!
# Tempo of a chart

A BPM is defined by name and takes effect where its name is placed.  `settleChanges` joins the two: each placed
definition is a change of tempo at the beat of its placement, each other one is reported.  If that makes no
change, the lowest name counts from the beginning.
-/

namespace RhythmChart

variable {α : Type} [Scalar α]

structure Placement (α : Type) where
  time : SlotTime
  beat : α

/-- A BPM definition that is in force. -/
structure Definition (α : Type) [Scalar α] where
  id : BpmId
  bpm : Positive α
  span : Span

/-- Settles placements in order.  Each must name a definition. -/
def settlePlacements (prompter : Prompter α) (defined : Kept BpmId (Finite α))
    (ds : List (Declaration BpmId (Placement α))) : Settling α (Kept BpmId (Placement α)) :=
  ds.foldlM (fun kept d => do
    if defined.contains d.key then
      declare prompter (fun id older newer => .bpmPlacement id older.time newer.time) kept d
    else stop (.undefinedBpm d.key) d.span) ∅

/-- The definition kept for a name.  Its BPM must be above zero. -/
def definition (id : BpmId) (bpm : Spanned (Finite α)) : Settling α (Definition α) :=
  match bpm.content.positive? with
  | some positive => return ⟨id, positive, bpm.span⟩
  | none => stop (.nonPositiveBpm id) bpm.span

/-- The definitions kept, in the order of their names. -/
def definitions (kept : Kept BpmId (Finite α)) : Settling α (List (Definition α)) :=
  kept.toList.mapM fun (id, bpm) => definition id bpm

namespace Definition

def changeAt (d : Definition α) (beat : α) : BpmChange α := ⟨d.id, d.bpm, beat⟩

def unplaced (d : Definition α) : Spanned Warning := ⟨.unplacedBpm d.id, d.span⟩

def implicit (d : Definition α) : Spanned Warning := ⟨.implicitInitialBpm d.id, d.span⟩

end Definition

/-- The changes that definitions make at the beats of their placements, in the order of names. -/
def placedChanges (ds : List (Definition α)) (placed : Kept BpmId (Placement α)) : List (BpmChange α) :=
  ds.filterMap fun d => placed[d.id]?.map fun p => d.changeAt p.content.beat

/-- The warnings about definitions that are not placed.  There are none where nothing is placed. -/
def leftOver (ds : List (Definition α)) (placed : Kept BpmId (Placement α)) : List (Spanned Warning) :=
  if placed.isEmpty then [] else (ds.filter fun d => !placed.contains d.id).map Definition.unplaced

/-- Without any other change, the first definition counts from the beginning, and the rest are not placed. -/
def implicitChange : List (Definition α) → Settling α (List (BpmChange α))
  | [] => stop .noBpmDefinition ⟨0, 0⟩
  | d :: rest => do
    warn (d.implicit :: rest.map Definition.unplaced)
    return [d.changeAt ((0 : Nat) : α)]

/-- The changes of tempo, in the order of names. -/
def settleChanges (ds : List (Definition α)) (placed : Kept BpmId (Placement α)) :
    Settling α (List (BpmChange α)) := do
  warn (leftOver ds placed)
  match placedChanges ds placed with
  | [] => implicitChange ds
  | changes => return changes

end RhythmChart
