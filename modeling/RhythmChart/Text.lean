/-!
# Texts and places in them

Texts are lists of characters.  `isBlank` is the Unicode property White_Space; `trim` removes blanks on both
sides of a text, `firstWord?` finds the first run of other characters.  `cut?` splits at the first character of a
kind, `unquote` takes one pair of quotes off, `byteLength` measures a text by its UTF-8 bytes.

A span is a range of byte offsets in the chart's text.  `Spanned α` is a value with the span it comes from.
-/

namespace RhythmChart

/-! ## White space -/

namespace Text

/-- The code points of White_Space, as closed ascending ranges. -/
def blankRanges : List (Nat × Nat) :=
  [(0x0009, 0x000D), (0x0020, 0x0020), (0x0085, 0x0085), (0x00A0, 0x00A0), (0x1680, 0x1680),
   (0x2000, 0x200A), (0x2028, 0x2029), (0x202F, 0x202F), (0x205F, 0x205F), (0x3000, 0x3000)]

def isBlank (c : Char) : Bool :=
  blankRanges.any fun r => decide (r.1 ≤ c.toNat) && decide (c.toNat ≤ r.2)

def trimStart (s : List Char) : List Char := s.dropWhile isBlank

def trimEnd (s : List Char) : List Char := (s.reverse.dropWhile isBlank).reverse

def trim (s : List Char) : List Char := trimEnd (trimStart s)

/-- The first run of characters that are not blank. -/
def firstWord? (s : List Char) : Option (List Char) :=
  match trimStart s with
  | [] => none
  | c :: r => some ((c :: r).takeWhile fun d => !isBlank d)

/-! ## Cutting -/

def byteLength (s : List Char) : Nat := s.foldr (fun c n => c.utf8Size + n) 0

@[simp]
theorem byteLength_nil : byteLength [] = 0 := rfl

@[simp]
theorem byteLength_cons (c : Char) (s : List Char) :
    byteLength (c :: s) = c.utf8Size + byteLength s := rfl

@[simp]
theorem byteLength_append (s t : List Char) :
    byteLength (s ++ t) = byteLength s + byteLength t := by
  induction s with
  | nil => simp
  | cons c s ih => rw [List.cons_append, byteLength_cons, byteLength_cons, ih, Nat.add_assoc]

/-- What stands before and after the first character with the property, if there is one. -/
def cut? (p : Char → Bool) : List Char → Option (List Char × List Char)
  | [] => none
  | c :: r => if p c then some ([], r) else (cut? p r).map fun (before, after) => (c :: before, after)

/-- The text without one pair of surrounding double quotes.  A single quote character stays. -/
def unquote (s : List Char) : List Char :=
  match s with
  | '"' :: r => if r.getLast? = some '"' then r.dropLast else s
  | _ => s

def upper (s : List Char) : List Char := s.map Char.toUpper

/-- The text, filled up to a width with a character on the left. -/
def padLeft (width : Nat) (fill : Char) (s : List Char) : List Char :=
  List.replicate (width - s.length) fill ++ s

end Text

/-! ## Places -/

/-- A half-open range of byte offsets. -/
structure Span where
  /-- The first byte. -/
  start : Nat
  /-- The byte after the last. -/
  stop : Nat
  deriving DecidableEq

namespace Span

def shift (s : Span) (bytes : Nat) : Span := ⟨s.start + bytes, s.stop + bytes⟩

end Span

/-- A value and the place in the text it comes from. -/
structure Spanned (α : Type) where
  content : α
  span : Span
  deriving DecidableEq

namespace Spanned

def map {α β : Type} (f : α → β) (x : Spanned α) : Spanned β := ⟨f x.content, x.span⟩

instance {α : Type} [ToString α] : ToString (Spanned α) where
  toString x :=
    toString x.content ++ " at indices [" ++ toString x.span.start ++ ", " ++
      toString x.span.stop ++ ")"

end Spanned

end RhythmChart
