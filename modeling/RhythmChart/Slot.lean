import RhythmChart.Text
import RhythmChart.Timeline

/-!
# Slots of a message

A track is a measure of the chart, counted from zero.  The payload of a message is a sequence of slots of two
characters each, which divide its track evenly: of `n` slots, the slot `i` is at the fraction `i / n` of the track.
The fraction is kept in lowest terms, so one position has one representation, whatever the number of slots.  A
slot of two digits that are not both zero is an object; all others are silent.
-/

namespace RhythmChart

/-! ## Tracks -/

structure Track where
  /-- Its number, from zero. -/
  number : Nat
  deriving DecidableEq

namespace Track

instance : Ord Track where
  compare a b := compare a.number b.number

instance : Std.TransOrd Track where
  eq_swap := Std.OrientedOrd.eq_swap (α := Nat)
  isLE_trans := Std.TransOrd.isLE_trans (α := Nat)

instance : Std.LawfulEqOrd Track where
  eq_of_compare {a b} h := by
    cases a; cases b
    exact congrArg Track.mk (Std.LawfulEqOrd.eq_of_compare h)

def text (t : Track) : List Char := '#' :: Text.padLeft 3 '0' (toString t.number).toList

instance : ToString Track where
  toString t := String.ofList t.text

end Track

/-! ## Times on the chart -/

/-- A position in a track, as a fraction of the track in lowest terms. -/
structure SlotTime where
  track : Track
  numerator : Nat
  denominator : Nat
  /-- The position is before the next track. -/
  lt : numerator < denominator
  /-- The fraction is in lowest terms. -/
  coprime : numerator.gcd denominator = 1
  deriving DecidableEq

namespace SlotTime

/-- The position `n / d` of a track, if it is before the next one. -/
def of? (track : Track) (n d : Nat) : Option SlotTime :=
  if h : n < d then
    some
      { track
        numerator := n / n.gcd d
        denominator := d / n.gcd d
        lt := Nat.div_lt_div_of_lt_of_dvd (Nat.gcd_dvd_right n d) h
        coprime := Nat.gcd_div_gcd_div_gcd_of_pos_right (by omega) }
  else none

/-- Times are ordered by track, then by the exact fraction. -/
def order (a b : SlotTime) : Ordering :=
  (compare a.track b.track).then
    (compare (a.numerator * b.denominator) (b.numerator * a.denominator))

instance : Ord SlotTime where
  compare := order

def measure {α : Type} [Scalar α] (t : SlotTime) : α :=
  (t.track.number : α) + (t.numerator : α) / (t.denominator : α)

def debugText (t : SlotTime) : String :=
  "ObjTime \x7b track: Track(" ++ toString t.track.number ++ "), numerator: " ++
    toString t.numerator ++ ", denominator: " ++ toString t.denominator ++ " \x7d"

end SlotTime

/-! ## Slots -/

/-- An object of a message. -/
structure Slot (α : Type) where
  time : SlotTime
  beat : α
  high : Digit
  low : Digit

namespace Slot

variable {α : Type}

def value (s : Slot α) : Nat := 36 * s.high.val + s.low.val

def bpmId (s : Slot α) : BpmId := BpmId.ofDigits s.high s.low

/-- Neighbouring characters in pairs.  A last character without a neighbour is dropped. -/
def pairs : List Char → List (Char × Char)
  | a :: b :: s => (a, b) :: pairs s
  | _ => []

def digits? (a b : Char) : Option (Digit × Digit) := do
  let high ← Digit.ofChar? a
  let low ← Digit.ofChar? b
  if high = 0 ∧ low = 0 then none else return (high, low)

/-- The object of the slot `i` of `n`, if its characters write one. -/
def read? [Scalar α] (measures : MeasureTimeline α) (track : Track) (n i : Nat) (a b : Char) :
    Option (Slot α) := do
  let (high, low) ← digits? a b
  let time ← SlotTime.of? track i n
  return ⟨time, measures.beat time.measure, high, low⟩

def decode [Scalar α] (measures : MeasureTimeline α) (track : Track) (payload : List Char) :
    List (Slot α) :=
  (pairs payload).zipIdx.filterMap fun ((a, b), i) =>
    read? measures track (payload.length / 2) i a b

end Slot

end RhythmChart
