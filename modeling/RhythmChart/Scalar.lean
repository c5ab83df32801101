/-!
# The numbers of a chart

Positions, beats and seconds are computed over any type `α` with `Scalar α`.  Two types have it:
binary64 floating point, on which charts are resolved, and the exact rationals, on which the laws of
the timelines hold without rounding.  The definitions that use `Scalar` are the same for both.

`Binary64.rank` orders all binary64 numbers on a line: negative ones below positive ones, `-0` below `0`, an
undefined number beyond the infinities.  `Finite α` and `Positive α` are numbers that passed a check once and
carry the result.  A number that fails is refused for one `Refusal`, the first that applies.
-/

namespace RhythmChart

/-! ## Bits of a binary64 number -/

namespace Binary64

/-- The place of a number in the total order.  The bits of non-negative numbers ascend with the
number, those of negative numbers descend. -/
def rank (x : Float) : Int :=
  let bits : Nat := x.toBits.toNat
  if bits < 1 <<< 63 then bits else (1 <<< 63 : Nat) - 1 - bits

/-- A finite number as an integer times a power of two. -/
structure Parts where
  negative : Bool
  /-- The integer, below `2 ^ 53`. -/
  significand : Nat
  exponent : Int
  deriving DecidableEq

/-- The parts of a finite number.  Subnormal numbers have no implicit leading bit. -/
def parts (x : Float) : Parts :=
  let bits : Nat := x.toBits.toNat
  let negative := decide (1 <<< 63 ≤ bits)
  let biased : Nat := bits / 1 <<< 52 % 1 <<< 11
  let fraction : Nat := bits % 1 <<< 52
  if biased = 0 then ⟨negative, fraction, -1074⟩
  else ⟨negative, 1 <<< 52 + fraction, (biased : Int) - 1075⟩

end Binary64

/-! ## Scalars -/

/-- Numbers with the four operations, a numeric comparison, and a total order for sorting.  The
numeric comparison may leave numbers unordered; the total order never does. -/
class Scalar (α : Type) extends
    NatCast α, Add α, Sub α, Mul α, Div α, Neg α, BEq α, LT α, LE α where
  decLT : DecidableLT α
  decLE : DecidableLE α
  /-- The number is neither infinite nor undefined. -/
  isFinite : α → Bool
  /-- The total order by which lists are sorted. -/
  totalLE : α → α → Bool
  isFinite_four : isFinite ((4 : Nat) : α) = true

attribute [reducible, instance] Scalar.decLT Scalar.decLE

namespace Scalar

instance : Scalar Float where
  natCast := Float.ofNat
  decLT := inferInstance
  decLE := inferInstance
  isFinite := Float.isFinite
  totalLE x y := decide (Binary64.rank x ≤ Binary64.rank y)
  isFinite_four := by decide

instance : Scalar Rat where
  decLT := inferInstance
  decLE := inferInstance
  isFinite _ := true
  totalLE x y := decide (x ≤ y)
  isFinite_four := rfl

variable {α : Type} [Scalar α]

/-- The greatest number of a list in the total order. -/
def greatest? : List α → Option α
  | [] => none
  | x :: xs => some (xs.foldl (fun best y => if totalLE best y then y else best) x)

end Scalar

/-! ## Checked numbers -/

inductive Refusal where
  | undefined
  | positiveInfinity
  | negativeInfinity
  | outOfRange
  deriving DecidableEq

structure Finite (α : Type) [Scalar α] where
  val : α
  finite : Scalar.isFinite val = true
  deriving DecidableEq

structure Positive (α : Type) [Scalar α] extends Finite α where
  pos : ((0 : Nat) : α) < val
  deriving DecidableEq

variable {α : Type} [Scalar α]

namespace Finite

@[ext]
theorem ext {x y : Finite α} (h : x.val = y.val) : x = y := by
  cases x; cases y; simp_all

def of? (x : α) : Option (Finite α) :=
  if h : Scalar.isFinite x = true then some ⟨x, h⟩ else none

/-- Accepts finite numbers, and tells an undefined one and the two infinities apart. -/
def check (x : α) : Except Refusal (Finite α) :=
  match of? x with
  | some v => .ok v
  | none =>
    if ((0 : Nat) : α) < x then .error .positiveInfinity
    else if x < ((0 : Nat) : α) then .error .negativeInfinity
    else .error .undefined

/-- A finite number as a positive one, if it is above zero. -/
def positive? (x : Finite α) : Option (Positive α) :=
  if h : ((0 : Nat) : α) < x.val then some ⟨x, h⟩ else none

/-- The four beats of a measure where a chart declares none. -/
def four : Finite α := ⟨((4 : Nat) : α), Scalar.isFinite_four⟩

end Finite

namespace Positive

@[ext]
theorem ext {x y : Positive α} (h : x.val = y.val) : x = y := by
  obtain ⟨x, _⟩ := x
  obtain ⟨y, _⟩ := y
  cases Finite.ext h
  rfl

/-- Accepts finite numbers above zero; a number that is not finite is refused for that. -/
def check (x : α) : Except Refusal (Positive α) :=
  match Finite.check x with
  | .error r => .error r
  | .ok v =>
    match v.positive? with
    | some p => .ok p
    | none => .error .outOfRange

end Positive

end RhythmChart
