import RhythmChart.Base36
import RhythmChart.Scalar

/-!
# Piecewise linear timelines

A timeline is a sequence of changes of rate.  Each change has a position, and from there on its rate
says how a value advances.  `Timeline.resolve` computes the value at each change from the one before;
a change with its value is a knot.  Before the first knot the timeline runs from the value `origin` at
the position zero, with the first knot's rate.  A binary search finds the knot that counts at a position.

Two timelines place a chart: one leads from measures to beats, the other from beats to seconds.
-/

namespace RhythmChart

/-! ## Binary search

`partitionPoint xs p` is the number of elements before the first one that fails `p`, when `p` holds on
a first part of the array and nowhere else.  The search halves a window that always holds the last
element known to pass, so its answer is defined for every `p`. -/

section Search

variable {σ : Type}

/-- Narrows the window of `size` elements from `base` on to one element, then counts it in if it
passes. -/
def narrow (xs : Array σ) (p : σ → Bool) (base size : Nat) (h : base + size ≤ xs.size)
    (pos : 0 < size) : Nat :=
  if _many : 1 < size then
    if p xs[base + size / 2] then
      narrow xs p (base + size / 2) (size - size / 2) (by omega) (by omega)
    else narrow xs p base (size - size / 2) (by omega) (by omega)
  else if p xs[base] then base + 1
  else base
termination_by size

/-- The number of elements that a binary search for the end of the passing part counts. -/
def partitionPoint (xs : Array σ) (p : σ → Bool) : Nat :=
  if h : 0 < xs.size then narrow xs p 0 xs.size (by omega) h else 0

theorem narrow_le (xs : Array σ) (p : σ → Bool) (base size : Nat) (h : base + size ≤ xs.size)
    (pos : 0 < size) : narrow xs p base size h pos ≤ xs.size := by
  fun_induction narrow xs p base size h pos <;> omega

theorem partitionPoint_le (xs : Array σ) (p : σ → Bool) : partitionPoint xs p ≤ xs.size := by
  unfold partitionPoint
  split
  · exact narrow_le ..
  · omega

end Search

/-! ## Timelines -/

/-- A change of rate: where it is, and how a value advances over a distance from there on. -/
class Rate (ρ : Type) (α : outParam Type) where
  position : ρ → α
  /-- The value after some distance, from the value before it. -/
  advance : ρ → α → α → α

/-- A change of rate and the value at its position. -/
structure Knot (ρ α : Type) where
  change : ρ
  value : α
  deriving DecidableEq

namespace Knot

variable {ρ α : Type} [Rate ρ α]

def position (k : Knot ρ α) : α := Rate.position k.change

/-- The value at some position, by the rate of the knot. -/
def extend [Scalar α] (k : Knot ρ α) (p : α) : α :=
  Rate.advance k.change k.value (p - k.position)

end Knot

/-- A sequence of knots, at least one. -/
structure Timeline (ρ α : Type) where
  knots : Array (Knot ρ α)
  nonempty : 0 < knots.size
  deriving DecidableEq

namespace Timeline

variable {ρ α : Type} [Scalar α] [Rate ρ α]

/-- Changes after a knot, each with the value that the knot before it leads to. -/
def resolveFrom (k : Knot ρ α) : List ρ → List (Knot ρ α)
  | [] => []
  | c :: cs =>
    let next : Knot ρ α := ⟨c, k.extend (Rate.position c)⟩
    next :: resolveFrom next cs

/-- The first knot.  Its own rate leads to it from the origin. -/
def firstKnot (origin : α) (c : ρ) : Knot ρ α := ⟨c, Rate.advance c origin (Rate.position c)⟩

/-- The timeline of a first change and the changes after it. -/
def resolve (origin : α) (first : ρ) (rest : List ρ) : Timeline ρ α where
  knots := (firstKnot origin first :: resolveFrom (firstKnot origin first) rest).toArray
  nonempty := by simp

def first (t : Timeline ρ α) : Knot ρ α :=
  have := t.nonempty
  t.knots[0]

/-- The knot before an index, or the first one. -/
def before (t : Timeline ρ α) (i : Nat) (h : i ≤ t.knots.size) : Knot ρ α :=
  have := t.nonempty
  t.knots[i - 1]

/-- The value at a position: before the first knot from the origin, on a knot its own value, of knots
that share the position the first one's; else from the last knot before the position. -/
def valueAt (t : Timeline ρ α) (origin p : α) : α :=
  if p < t.first.position then Rate.advance t.first.change origin p
  else
    let i := partitionPoint t.knots fun k => decide (k.position < p)
    match t.knots[i]? with
    | some k =>
      if k.position == p then k.value else (t.before i (partitionPoint_le ..)).extend p
    | none => (t.before i (partitionPoint_le ..)).extend p

end Timeline

/-! ## From measures to beats

Each change says how many beats a measure has from some measure on.  A chart that declares nothing has
four beats in every measure. -/

section Beats

structure MeasureChange (α : Type) [Scalar α] where
  measure : α
  beats : Finite α
  deriving DecidableEq

variable {α : Type} [Scalar α]

instance : Rate (MeasureChange α) α where
  position c := c.measure
  advance c beat measures := beat + measures * c.beats.val

abbrev MeasureTimeline (α : Type) [Scalar α] := Timeline (MeasureChange α) α

namespace MeasureTimeline

def initial : MeasureChange α := ⟨((0 : Nat) : α), Finite.four⟩

/-- The timeline of some changes, in the order given. -/
def ofChanges : List (MeasureChange α) → MeasureTimeline α
  | [] => Timeline.resolve ((0 : Nat) : α) initial []
  | c :: cs => Timeline.resolve ((0 : Nat) : α) c cs

/-- The beat of a measure position.  The measure zero is at the beat zero. -/
def beat (t : MeasureTimeline α) (measure : α) : α := t.valueAt ((0 : Nat) : α) measure

end MeasureTimeline

end Beats

/-! ## From beats to seconds

Each change sets the beats per minute from some beat on.  The wave offset is the time from the start of
the audio to the beat zero of the chart, so the timeline runs from its negative. -/

section Seconds

structure BpmChange (α : Type) [Scalar α] where
  id : BpmId
  bpm : Positive α
  beat : α
  deriving DecidableEq

variable {α : Type} [Scalar α]

instance : Rate (BpmChange α) α where
  position c := c.beat
  advance c seconds beats := seconds + beats / c.bpm.val * ((60 : Nat) : α)

structure BpmTimeline (α : Type) [Scalar α] extends Timeline (BpmChange α) α where
  /-- The seconds from the start of the audio to the beat zero. -/
  waveOffset : α
  deriving DecidableEq

namespace BpmTimeline

/-- Changes in the order of their beats; those on one beat keep their order. -/
def sort (cs : List (BpmChange α)) : List (BpmChange α) :=
  cs.mergeSort fun a b => Scalar.totalLE a.beat b.beat

/-- The timeline of some changes in any order.  There is none without a change. -/
def ofChanges? (cs : List (BpmChange α)) (waveOffset : α) : Option (BpmTimeline α) :=
  match sort cs with
  | [] => none
  | c :: cs => some ⟨Timeline.resolve (-waveOffset) c cs, waveOffset⟩

def seconds (t : BpmTimeline α) (beat : α) : α := t.valueAt (-t.waveOffset) beat

/-- The beats per minute at a beat, of the last change at or before it. -/
def bpmAt (t : BpmTimeline α) (beat : α) : Positive α :=
  (t.before (partitionPoint t.knots fun k => decide (k.position ≤ beat))
    (partitionPoint_le ..)).change.bpm

end BpmTimeline

end Seconds

end RhythmChart
