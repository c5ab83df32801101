import RhythmChart.Issue
import RhythmChart.Slot
import Std.Data.TreeMap

/-!
# Notes and their assembly

A note is a tap at one point or a slide from one point to another.  The type of its points is a
parameter: notes are assembled from marks, which have a beat, and then placed at points, which have
seconds too.

Each slot of a tap line is a tap.  On slide lines, starts and ends are paired by their channel.  An end
takes the start that waits on its own line, else the one that waits on the channel since an earlier
line; a start that still waits at the end of its line waits on the channel from then on.  A start that
another one replaces, or that waits at the end of the chart, is reported; so is an end that finds no
start.
-/

namespace RhythmChart

/-! ## Notes -/

/-- A place on the playfield and its beat. -/
structure Mark (α : Type) where
  /-- The leftmost lane. -/
  lane : Nat
  width : Nat
  beat : α
  deriving DecidableEq

/-- A mark and its seconds. -/
structure Point (α : Type) extends Mark α where
  seconds : α
  deriving DecidableEq

/-- A note with points of some type. -/
inductive Note (π : Type) where
  | tap (point : π)
  /-- To hold from a start to an end, paired by a channel. -/
  | slide (channel : Nat) (start stop : π)
  deriving DecidableEq

namespace Note

variable {π ψ α : Type}

def map (f : π → ψ) : Note π → Note ψ
  | .tap point => .tap (f point)
  | .slide channel start stop => .slide channel (f start) (f stop)

def first : Note π → π
  | .tap point => point
  | .slide _ start _ => start

def final : Note π → π
  | .tap point => point
  | .slide _ _ stop => stop

def firstTime (n : Note (Point α)) : α := n.first.seconds

end Note

/-! ## Lines of slots -/

variable {α : Type}

inductive LaneLine (α : Type) where
  | taps (lane : Nat) (slots : List (Slot α))
  | slides (lane channel : Nat) (slots : List (Slot α)) (span : Span)

structure OpenSlide (α : Type) where
  mark : Mark α
  time : SlotTime
  span : Span

structure Assembly (α : Type) where
  notes : List (Note (Mark α))
  warnings : List (Spanned Warning)

namespace Assembly

instance : Append (Assembly α) where
  append a b := ⟨a.notes ++ b.notes, a.warnings ++ b.warnings⟩

def empty : Assembly α := ⟨[], []⟩

def note (n : Note (Mark α)) : Assembly α := ⟨[n], []⟩

/-- The warning that a slide is never ended, if there is such a slide. -/
def unclosed (channel : Nat) : Option (OpenSlide α) → Assembly α
  | none => empty
  | some s => ⟨[], [⟨.unclosedSlide channel s.time, s.span⟩]⟩

def unmatched (channel : Nat) (time : SlotTime) (span : Span) : Assembly α :=
  ⟨[], [⟨.unmatchedSlideEnd channel time, span⟩]⟩

end Assembly

def slideStart : Digit := ⟨1, by decide⟩

def slideEnd : Digit := ⟨2, by decide⟩

/-- The mark of a slot: its second digit is the width. -/
def Slot.mark (lane : Nat) (s : Slot α) : Mark α := ⟨lane, s.low.val, s.beat⟩

/-- Goes through the slots of a slide line.  `onLine` is the start that waits on the line, `onChannel`
the one that waits on the channel.  The answer tells which start waits on the channel after the line. -/
def slideLine (lane channel : Nat) (span : Span) (onLine onChannel : Option (OpenSlide α)) :
    List (Slot α) → Assembly α × Option (OpenSlide α)
  | [] =>
    match onLine with
    | none => (.empty, onChannel)
    | some s => (.unclosed channel onChannel, some s)
  | slot :: slots =>
    if slot.high = slideStart then
      let (rest, waiting) :=
        slideLine lane channel span (some ⟨slot.mark lane, slot.time, span⟩) onChannel slots
      (.unclosed channel onLine ++ rest, waiting)
    else if slot.high = slideEnd then
      match onLine, onChannel with
      | some s, _ =>
        let (rest, waiting) := slideLine lane channel span none onChannel slots
        (.note (.slide channel s.mark (slot.mark lane)) ++ rest, waiting)
      | none, some s =>
        let (rest, waiting) := slideLine lane channel span none none slots
        (.note (.slide channel s.mark (slot.mark lane)) ++ rest, waiting)
      | none, none =>
        let (rest, waiting) := slideLine lane channel span none none slots
        (.unmatched channel slot.time span ++ rest, waiting)
    else slideLine lane channel span onLine onChannel slots

/-- The starts that wait on each channel. -/
abbrev OpenSlides (α : Type) := Std.TreeMap Nat (OpenSlide α)

/-- Sets the start that waits on a channel. -/
def OpenSlides.set (opened : OpenSlides α) (channel : Nat) : Option (OpenSlide α) → OpenSlides α
  | none => opened.erase channel
  | some s => opened.insert channel s

/-- The warnings about all starts that wait, in the order of channels. -/
def OpenSlides.unclosed (opened : OpenSlides α) : Assembly α :=
  ⟨[], opened.toList.map fun (channel, s) => ⟨.unclosedSlide channel s.time, s.span⟩⟩

/-- Notes and warnings of some lines, from the starts that wait before them to the end of the chart. -/
def assembleFrom (opened : OpenSlides α) : List (LaneLine α) → Assembly α
  | [] => opened.unclosed
  | .taps lane slots :: lines =>
    ⟨slots.map fun s => .tap (s.mark lane), []⟩ ++ assembleFrom opened lines
  | .slides lane channel slots span :: lines =>
    let (made, waiting) := slideLine lane channel span none opened[channel]? slots
    made ++ assembleFrom (opened.set channel waiting) lines

/-- Notes and warnings of a whole chart. -/
def assemble (lines : List (LaneLine α)) : Assembly α := assembleFrom ∅ lines

end RhythmChart
