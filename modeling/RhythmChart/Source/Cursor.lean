import RhythmChart.Issue
import RhythmChart.Text

/-!
# Lines of a text

A cursor walks a text line by line.  A line feed ends a line, one carriage return right before it
belongs to the line end, and text after the last line feed is a line too.  Each line is trimmed, and
comes with its number and the span of its trimmed text.
-/

namespace RhythmChart

structure Line where
  /-- Its number, from one. -/
  number : Nat
  /-- The text between the blanks on both sides. -/
  text : List Char
  span : Span
  deriving DecidableEq

/-- A position in a text, at the beginning of a line or at the end. -/
structure Cursor where
  /-- The number of the next line, from one. -/
  line : Nat
  /-- The number of bytes before the position. -/
  index : Nat
  rest : List Char
  deriving DecidableEq

/-- The line with this raw text, which begins at a byte offset. -/
def Line.ofRaw (number index : Nat) (raw : List Char) : Line :=
  let start := index + Text.byteLength (raw.takeWhile Text.isBlank)
  let text := Text.trim raw
  ⟨number, text, start, start + Text.byteLength text⟩

namespace Cursor

def ofText (s : List Char) : Cursor := ⟨1, 0, s⟩

def isEnd (c : Cursor) : Bool := c.rest.isEmpty

/-- The text up to the next line feed. -/
def raw (c : Cursor) : List Char := c.rest.takeWhile (· != '\n')

/-- A text without one carriage return at its end. -/
def dropReturn (s : List Char) : List Char :=
  if s.getLast? = some '\r' then s.dropLast else s

/-- Consumes the next line.  There is none at the end. -/
def next? (c : Cursor) : Option (Line × Cursor) :=
  if c.rest = [] then none
  else
    match c.rest.dropWhile (· != '\n') with
    | [] => some (Line.ofRaw c.line c.index c.raw, ⟨c.line + 1, c.index + Text.byteLength c.raw, []⟩)
    | _ :: after =>
      some (Line.ofRaw c.line c.index (dropReturn c.raw),
        ⟨c.line + 1, c.index + Text.byteLength c.raw + 1, after⟩)

theorem length_rest_lt {c d : Cursor} {l : Line} (h : c.next? = some (l, d)) :
    d.rest.length < c.rest.length := by
  unfold next? at h
  have hle := (List.dropWhile_suffix (l := c.rest) (· != '\n')).length_le
  split at h
  · cases h
  · next hne =>
    have hpos := List.length_pos_iff.mpr hne
    split at h <;> cases h
    · exact hpos
    · next hd => rw [hd] at hle; exact hle

/-- All lines from the position on. -/
def lines (c : Cursor) : List Line :=
  match _h : c.next? with
  | none => []
  | some (l, d) => l :: d.lines
termination_by c.rest.length
decreasing_by exact length_rest_lt _h

/-- The error that a value is missing from the line consumed last. -/
def expected (c : Cursor) (span : Span) (what : String) : Spanned LexError :=
  ⟨⟨c.line - 1, .expected what⟩, span⟩

end Cursor

end RhythmChart
