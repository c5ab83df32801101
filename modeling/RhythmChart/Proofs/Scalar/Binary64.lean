import Mathlib
import RhythmChart.Scalar

/-!
# The numeric order of binary64 numbers

The significand of a binary64 number stays below `2 ^ 53`, and reaches `2 ^ 52` above the lowest
exponent (`canonical_unpack`).  So the numbers that are not undefined stand on one line, on which `place`
counts them from zero, and the numeric comparison is that of their places (`compare_eq`, `lt_iff`).
-/

namespace RhythmChart.Binary64

open Float.Model Float.Model.UnpackedFloat

/-! ## The range of the fields -/

/-- The fields of a finite number are in the range of the format. -/
structure InRange (m : Nat) (e : Int) : Prop where
  pos : 0 < m
  lt : m < 2 ^ 53
  lowest : -1074 ≤ e
  highest : e ≤ 971
  /-- Above the lowest exponent the leading bit is set. -/
  leading : e = -1074 ∨ 2 ^ 52 ≤ m

def Canonical : UnpackedFloat → Prop
  | .finite _ m e _ => InRange m e
  | _ => True

/-- The leading bit counts `2 ^ 52`. -/
theorem toNat_one_append (m : BitVec 52) : (1#1 ++ m).toNat = 2 ^ 52 + m.toNat := by
  rw [BitVec.toNat_append]
  change 2 ^ 52 ||| m.toNat = _
  rw [Nat.or_comm, Nat.or_two_pow_eq_add_of_lt m.isLt, Nat.add_comm]

theorem canonical_unpack (b : BitVec Format.binary64.numBits) :
    Canonical (unpack Format.binary64 b) := by
  rw [UnpackedFloat.unpack]
  have hm : (unpackMantissa b).toNat < 2 ^ 52 := (unpackMantissa b).isLt
  have he : (unpackExponent b).toNat < 2048 := (unpackExponent b).isLt
  have hbias : ((Format.binary64.exponentBias : Nat) : Int) = 1023 := rfl
  have hbits : ((Format.binary64.mantissaBitsWithoutImplicit : Nat) : Int) = 52 := rfl
  have hne {n : Nat} {k : BitVec 11} (hk : k.toNat = n) (h : ¬ unpackExponent b = k) :
      (unpackExponent b).toNat ≠ n :=
    fun heq => h (BitVec.eq_of_toNat_eq (heq.trans hk.symm))
  split
  · split <;> trivial
  · next htop =>
    have htop := hne (show (-1#11).toNat = 2047 from rfl) htop
    split
    · next hbottom =>
      have hbottom : (unpackExponent b).toNat = 0 := congrArg BitVec.toNat hbottom
      split
      · trivial
      · next hzero =>
        have hpos : (unpackMantissa b).toNat ≠ 0 := fun h => hzero (BitVec.eq_of_toNat_eq h)
        constructor <;> omega
    · next hbottom =>
      have hbottom := hne (show (0#11).toNat = 0 from rfl) hbottom
      have happend : (1#1 ++ unpackMantissa b).toNat = 2 ^ 52 + (unpackMantissa b).toNat :=
        toNat_one_append _
      constructor <;> omega

theorem canonical (x : Float) : Canonical x.toModel.unpack := canonical_unpack _

/-! ## The line of numbers -/

/-- How far a positive number is from zero, in steps from one number to the next. -/
def steps (m : Nat) (e : Int) : Int := (e + 1074) * 2 ^ 52 + m

theorem steps_pos {m : Nat} {e : Int} (h : InRange m e) : 0 < steps m e := by
  obtain ⟨hpos, -, hlowest, -, -⟩ := h
  unfold steps
  omega

theorem steps_lt_infinity {m : Nat} {e : Int} (h : InRange m e) : steps m e < 2047 * 2 ^ 52 := by
  obtain ⟨-, hlt, -, hhighest, -⟩ := h
  unfold steps
  omega

/-- Positive numbers are compared by their exponents first. -/
theorem compare_steps {m₁ m₂ : Nat} {e₁ e₂ : Int} (h₁ : InRange m₁ e₁) (h₂ : InRange m₂ e₂) :
    (compare e₁ e₂).then (compare m₁ m₂) = compare (steps m₁ e₁) (steps m₂ e₂) := by
  obtain ⟨-, hlt₁, hlowest₁, -, hleading₁⟩ := h₁
  obtain ⟨-, hlt₂, hlowest₂, -, hleading₂⟩ := h₂
  unfold steps
  rcases Int.lt_trichotomy e₁ e₂ with he | rfl | he
  · rw [Int.compare_eq_lt.2 he, Int.compare_eq_lt.2 (by omega)]
    rfl
  · rw [Int.compare_eq_eq.2 rfl, Ordering.eq_then]
    rcases Nat.lt_trichotomy m₁ m₂ with hm | rfl | hm
    · rw [Nat.compare_eq_lt.2 hm, Int.compare_eq_lt.2 (by omega)]
    · rw [Nat.compare_eq_eq.2 rfl, Int.compare_eq_eq.2 rfl]
    · rw [Nat.compare_eq_gt.2 hm, Int.compare_eq_gt.2 (by omega)]
  · rw [Int.compare_eq_gt.2 he, Int.compare_eq_gt.2 (by omega)]
    rfl

/-- The place of a number on the line of all numbers. -/
def place : UnpackedFloat → Int
  | .notANumber => 0
  | .zero _ => 0
  | .infinity s => s.apply (2047 * 2 ^ 52)
  | .finite s m e _ => s.apply (steps m e)

/-- All numbers but the infinities are between them. -/
theorem place_between {a : UnpackedFloat} (ha : Canonical a) (hinf : ∀ s, a ≠ .infinity s) :
    -(2047 * 2 ^ 52) < place a ∧ place a < 2047 * 2 ^ 52 := by
  cases a with
  | infinity s => exact absurd rfl (hinf s)
  | notANumber => exact ⟨by decide, by decide⟩
  | zero s => exact ⟨show -(2047 * 2 ^ 52) < (0 : Int) by decide, show (0 : Int) < _ by decide⟩
  | finite s m e hm =>
    have hpos := steps_pos ha
    have hlt := steps_lt_infinity ha
    cases s
    · change _ < -steps m e ∧ -steps m e < _
      omega
    · change _ < steps m e ∧ steps m e < _
      omega

theorem lt_eq_compare {i j : Int} (h : i < j) : some Ordering.lt = some (compare i j) := by
  rw [Int.compare_eq_lt.2 h]

theorem gt_eq_compare {i j : Int} (h : j < i) : some Ordering.gt = some (compare i j) := by
  rw [Int.compare_eq_gt.2 h]

theorem swap_compare (i j : Int) : (compare i j).swap = compare (-i) (-j) := by
  rcases Int.lt_trichotomy i j with h | rfl | h
  · rw [Int.compare_eq_lt.2 h, Int.compare_eq_gt.2 (by omega)]
    rfl
  · rw [Int.compare_eq_eq.2 rfl, Int.compare_eq_eq.2 rfl]
    rfl
  · rw [Int.compare_eq_gt.2 h, Int.compare_eq_lt.2 (by omega)]
    rfl

/-- Numbers are compared by their places, unless one is undefined. -/
theorem compare_eq {a b : UnpackedFloat} (ha : Canonical a) (hb : Canonical b)
    (hna : a ≠ .notANumber) (hnb : b ≠ .notANumber) :
    a.compare b = some (compare (place a) (place b)) := by
  fun_cases UnpackedFloat.compare a b with
  | case1 => exact absurd rfl hna
  | case2 => exact absurd rfl hnb
  | case3 s₁ s₂ => cases s₁ <;> cases s₂ <;> rfl
  | case4 _ _ hinf => exact gt_eq_compare (place_between hb hinf).2
  | case5 _ _ hinf => exact lt_eq_compare (place_between hb hinf).1
  | case6 _ _ hinf => exact lt_eq_compare (place_between ha hinf).2
  | case7 _ _ hinf => exact gt_eq_compare (place_between ha hinf).1
  | case8 => exact gt_eq_compare (steps_pos ha)
  | case9 => exact lt_eq_compare (Int.neg_neg_of_pos (steps_pos ha))
  | case10 => exact lt_eq_compare (steps_pos hb)
  | case11 => exact gt_eq_compare (Int.neg_neg_of_pos (steps_pos hb))
  | case12 => rfl
  | case13 =>
    rw [compare_steps ha hb, swap_compare]
    rfl
  | case14 =>
    have hneg := Int.neg_neg_of_pos (steps_pos ha)
    exact lt_eq_compare (Int.lt_trans hneg (steps_pos hb))
  | case15 =>
    have hneg := Int.neg_neg_of_pos (steps_pos hb)
    exact gt_eq_compare (Int.lt_trans hneg (steps_pos ha))
  | case16 =>
    rw [compare_steps ha hb]
    rfl

/-! ## Comparison -/

/-- The place of a number on the line, if it is not undefined. -/
def position (x : Float) : Int := place x.toModel.unpack

theorem isNaN_eq_false_iff {x : Float} : x.isNaN = false ↔ x.toModel.unpack ≠ .notANumber := by
  change x.toModel.unpack.isNaN = false ↔ _
  cases x.toModel.unpack <;> simp [UnpackedFloat.isNaN]

theorem lt_iff {x y : Float} :
    x < y ↔ x.isNaN = false ∧ y.isNaN = false ∧ position x < position y := by
  have hlt : x < y ↔ x.toModel.unpack.compare y.toModel.unpack = some .lt :=
    decide_eq_true_iff.trans (beq_iff_eq ..)
  rw [hlt, isNaN_eq_false_iff, isNaN_eq_false_iff]
  by_cases hx : x.toModel.unpack = .notANumber
  · rw [hx]
    exact iff_of_false (by simp [UnpackedFloat.compare]) fun h => h.1 rfl
  by_cases hy : y.toModel.unpack = .notANumber
  · rw [hy]
    exact iff_of_false (by cases x.toModel.unpack <;> simp [UnpackedFloat.compare]) fun h => h.2.1 rfl
  rw [compare_eq (canonical x) (canonical y) hx hy, Option.some.injEq,
    Int.compare_eq_lt]
  exact ⟨fun h => ⟨hx, hy, h⟩, fun h => h.2.2⟩

end RhythmChart.Binary64
