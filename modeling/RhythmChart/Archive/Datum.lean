import RhythmChart.Scalar
import RhythmChart.Text

/-!
# Archived data

A datum is a tree of numbers, texts, lists and records, into which values are written and from which
they are read back.  A number that is not finite has no written form; it leaves a gap, `null`, which
cannot be read back as a number.
-/

namespace RhythmChart

/-- A tree of data over numbers of type `α`. -/
inductive Datum (α : Type) where
  | null
  | nat (n : Nat)
  | scalar (x : α)
  | text (s : String)
  | list (items : List (Datum α))
  | record (fields : List (String × Datum α))

namespace Datum

variable {α β : Type}

/-! ## Writing -/

/-- A number; a gap if it is not finite. -/
def ofScalar [Scalar α] (x : α) : Datum α := if Scalar.isFinite x then .scalar x else .null

def ofOption (f : β → Datum α) : Option β → Datum α
  | none => .null
  | some b => f b

def ofList (f : β → Datum α) (bs : List β) : Datum α := .list (bs.map f)

/-- A datum under the name of its case. -/
def variant (name : String) (d : Datum α) : Datum α := .record [(name, d)]

def ofSpan (s : Span) : Datum α := .record [("start", .nat s.start), ("end", .nat s.stop)]

def ofSpanned (f : β → Datum α) (x : Spanned β) : Datum α :=
  .record [("content", f x.content), ("range", ofSpan x.span)]

/-! ## Reading -/

def nat? : Datum α → Option Nat
  | .nat n => some n
  | _ => none

def scalar? : Datum α → Option α
  | .scalar x => some x
  | _ => none

def text? : Datum α → Option String
  | .text s => some s
  | _ => none

def option? (f : Datum α → Option β) : Datum α → Option (Option β)
  | .null => some none
  | d => (f d).map some

def list? (f : Datum α → Option β) : Datum α → Option (List β)
  | .list ds => ds.mapM f
  | _ => none

def field? (name : String) : Datum α → Option (Datum α)
  | .record fields => fields.lookup name
  | _ => none

def get? (f : Datum α → Option β) (name : String) (d : Datum α) : Option β :=
  (d.field? name).bind f

/-- The name of a case and the datum under it. -/
def variant? : Datum α → Option (String × Datum α)
  | .record [(name, d)] => some (name, d)
  | _ => none

def finite? [Scalar α] (d : Datum α) : Option (Finite α) := d.scalar?.bind Finite.of?

def positive? [Scalar α] (d : Datum α) : Option (Positive α) := d.finite?.bind Finite.positive?

def span? (d : Datum α) : Option Span := do
  return ⟨← d.get? nat? "start", ← d.get? nat? "end"⟩

def spanned? (f : Datum α → Option β) (d : Datum α) : Option (Spanned β) := do
  return ⟨← d.get? f "content", ← d.get? span? "range"⟩

end Datum

end RhythmChart
