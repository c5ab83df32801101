import Mathlib
import RhythmChart.Proofs.Scalar.Naturals

/-!
# Rounding to binary64 numbers

`nearest x` is the place of the binary64 number to which a rational `x` rounds: `x` is scaled so that its
integer part has 53 bits, or to the lowest exponent, and goes to the nearest integer, of two to the even
one.  Rounding is monotone (`nearest_mono`).  The unpacked operations end in a shift that keeps a round
bit and a sticky bit of what is lost; `rounds_roundWithAccuracy` says that what they pack then is the
number nearest to their exact result.
-/

namespace RhythmChart.Binary64

open Float.Model Float.Model.UnpackedFloat

/-! ## Rounding to an integer -/

/-- The nearest integer, of two that are as near the even one. -/
def roundEven (x : ℚ) : ℤ :=
  if Int.fract x < 1 / 2 then ⌊x⌋
  else if 1 / 2 < Int.fract x then ⌊x⌋ + 1
  else ⌊x⌋ + ⌊x⌋ % 2

theorem roundEven_intCast (n : ℤ) : roundEven n = n := by
  rw [roundEven, Int.fract_intCast, if_pos (by norm_num), Int.floor_intCast]

theorem floor_le_roundEven (x : ℚ) : ⌊x⌋ ≤ roundEven x := by
  unfold roundEven
  split_ifs <;> omega

theorem roundEven_le_floor_add_one (x : ℚ) : roundEven x ≤ ⌊x⌋ + 1 := by
  unfold roundEven
  split_ifs <;> omega

theorem roundEven_mono {x y : ℚ} (h : x ≤ y) : roundEven x ≤ roundEven y := by
  rcases (Int.floor_mono h).lt_or_eq with hlt | heq
  · have := roundEven_le_floor_add_one x
    have := floor_le_roundEven y
    omega
  · have hfract : Int.fract x ≤ Int.fract y := by
      rw [Int.fract, Int.fract, heq]
      exact sub_le_sub_right h _
    unfold roundEven
    rw [heq]
    split_ifs <;> first | linarith | omega

/-! ## Bits that are shifted out -/

/-- The number that a significand and its two residual bits stand for. -/
def Represents (em : ExtendedMantissa) (x : ℚ) : Prop :=
  match em.roundBit, em.stickyBit with
  | false, false => x = em.mantissa
  | false, true => em.mantissa < x ∧ x < em.mantissa + 1 / 2
  | true, false => x = em.mantissa + 1 / 2
  | true, true => em.mantissa + 1 / 2 < x ∧ x < em.mantissa + 1

namespace Represents

variable {em : ExtendedMantissa} {x : ℚ}

theorem exact (m : ℕ) : Represents (ExtendedMantissa.ofMantissaAndAccuracy m .exact) m := rfl

theorem le_and_lt (h : Represents em x) : em.mantissa ≤ x ∧ x < em.mantissa + 1 := by
  obtain ⟨m, r, s⟩ := em
  cases r <;> cases s <;> simp only [Represents] at h ⊢ <;> constructor <;> linarith

theorem floor_eq (h : Represents em x) : ⌊x⌋ = em.mantissa := by
  rw [Int.floor_eq_iff]
  exact_mod_cast h.le_and_lt

/-- The two bits tell on which side of the half the number is. -/
theorem roundedMantissa_eq (h : Represents em x) : (em.roundedMantissa : ℤ) = roundEven x := by
  have hfloor := h.floor_eq
  have hfract : Int.fract x = x - em.mantissa := by
    rw [Int.fract, hfloor]
    norm_cast
  unfold roundEven
  rw [hfloor, hfract]
  obtain ⟨m, r, s⟩ := em
  cases r <;> cases s <;> simp only [Represents] at h ⊢
  · rw [if_pos (by linarith)]
    rfl
  · rw [if_pos (by linarith)]
    rfl
  · rw [if_neg (by linarith), if_neg (by linarith)]
    rfl
  · rw [if_neg (by linarith), if_pos (by linarith)]
    rfl

/-- A bit that is shifted out becomes the round bit, and the two bits before it the sticky bit. -/
theorem shiftRightOne (h : Represents em x) : Represents em.shiftRightOne (x / 2) := by
  obtain ⟨m, r, s⟩ := em
  have hsplit : (m : ℚ) = 2 * (m / 2 : ℕ) + (m % 2 : ℕ) := by exact_mod_cast (Nat.div_add_mod m 2).symm
  rcases Nat.mod_two_eq_zero_or_one m with hm | hm <;> rw [hm] at hsplit <;> cases r <;> cases s <;>
    simp [Represents, ExtendedMantissa.shiftRightOne, hm] at h ⊢ <;> push_cast at hsplit ⊢ <;>
    first | linarith | constructor <;> linarith

theorem shift (h : Represents em x) (k : ℕ) : Represents (em >>> k) (x / 2 ^ k) := by
  change Represents (Nat.repeat ExtendedMantissa.shiftRightOne k em) _
  induction k with
  | zero => rwa [pow_zero, div_one]
  | succ k ih =>
    rw [Nat.repeat, pow_succ, ← div_div]
    exact ih.shiftRightOne

end Represents

/-! ## Rounding to a place -/

/-- A positive number is rounded in steps of `2 ^ e`. -/
structure ScaledBy (x : ℚ) (e : ℤ) : Prop where
  lowest : -1074 ≤ e
  lt : x < 2 ^ (e + 53)
  leading : e = -1074 ∨ 2 ^ (e + 52) ≤ x

theorem two_zpow_pos (e : ℤ) : (0 : ℚ) < 2 ^ e := zpow_pos (by norm_num) e

theorem two_zpow_add (e : ℤ) (k : ℕ) : (2 : ℚ) ^ (e + k) = 2 ^ k * 2 ^ e := by
  rw [zpow_add₀ (by norm_num), zpow_natCast, mul_comm]

/-- A greater number is rounded in steps that are not smaller. -/
theorem ScaledBy.le {x y : ℚ} {e e' : ℤ} (hx : ScaledBy x e) (hy : ScaledBy y e') (h : x ≤ y) :
    e ≤ e' := by
  rcases hx.leading with rfl | hlead
  · exact hy.lowest
  · have hlt : (2 : ℚ) ^ (e + 52) < 2 ^ (e' + 53) := (hlead.trans h).trans_lt hy.lt
    have := (zpow_lt_zpow_iff_right₀ (by norm_num : (1 : ℚ) < 2)).1 hlt
    omega

/-- The steps in which a number is rounded, as a power of two. -/
def exponentOf (x : ℚ) : ℤ := Int.log 2 (max x (2 ^ (-1022 : ℤ))) - 52

theorem scaledBy_exponentOf (x : ℚ) : ScaledBy x (exponentOf x) := by
  have hpos : 0 < max x (2 ^ (-1022 : ℤ)) := lt_max_of_lt_right (two_zpow_pos _)
  have hlt := Int.lt_zpow_succ_log_self (b := 2) (by norm_num) (max x (2 ^ (-1022 : ℤ)))
  have hle := Int.zpow_log_le_self (b := 2) (by norm_num) hpos
  have hlow : -1022 ≤ Int.log 2 (max x (2 ^ (-1022 : ℤ))) :=
    (Int.zpow_le_iff_le_log (by norm_num) hpos).1 (le_max_right _ _)
  refine ⟨?_, ?_, ?_⟩
  · unfold exponentOf
    omega
  · rw [exponentOf, show ∀ k : ℤ, k - 52 + 53 = k + 1 by intro k; ring]
    exact (le_max_left _ _).trans_lt hlt
  · rw [exponentOf, sub_add_cancel]
    rcases le_total x (2 ^ (-1022 : ℤ)) with hx | hx
    · left
      rw [max_eq_right hx, show (2 : ℚ) = (2 : ℕ) from rfl, Int.log_zpow (by norm_num)]
      rfl
    · right
      rw [max_eq_left hx] at hle ⊢
      exact hle

theorem ScaledBy.exponentOf_eq {x : ℚ} {e : ℤ} (h : ScaledBy x e) : exponentOf x = e :=
  le_antisymm ((scaledBy_exponentOf x).le h le_rfl) (h.le (scaledBy_exponentOf x) le_rfl)

/-- The significand of a number in steps of some size. -/
def significandOf (x : ℚ) (e : ℤ) : ℤ := roundEven (x / 2 ^ e)

namespace ScaledBy

variable {x : ℚ} {e : ℤ}

theorem significandOf_le (h : ScaledBy x e) : significandOf x e ≤ 2 ^ 53 := by
  have hle : x / 2 ^ e ≤ ((2 ^ 53 : ℤ) : ℚ) := by
    rw [div_le_iff₀ (two_zpow_pos e)]
    exact_mod_cast (two_zpow_add e 53 ▸ h.lt).le
  exact (roundEven_mono hle).trans_eq (roundEven_intCast _)

theorem le_significandOf (h : ScaledBy x e) : e = -1074 ∨ 2 ^ 52 ≤ significandOf x e := by
  refine h.leading.imp_right fun hlead => ?_
  have hle : ((2 ^ 52 : ℤ) : ℚ) ≤ x / 2 ^ e := by
    rw [le_div_iff₀ (two_zpow_pos e)]
    exact_mod_cast two_zpow_add e 52 ▸ hlead
  exact (roundEven_intCast _).symm.trans_le (roundEven_mono hle)

end ScaledBy

theorem significandOf_nonneg {x : ℚ} (h : 0 ≤ x) (e : ℤ) : 0 ≤ significandOf x e := by
  have hle : ((0 : ℤ) : ℚ) ≤ x / 2 ^ e := by
    rw [Int.cast_zero]
    exact div_nonneg h (two_zpow_pos e).le
  exact (roundEven_intCast _).symm.trans_le (roundEven_mono hle)

/-- How far the number to which a positive one rounds is from zero, if exponents had no bound above. -/
def stepsOf (x : ℚ) : ℤ := (exponentOf x + 1074) * 2 ^ 52 + significandOf x (exponentOf x)

theorem stepsOf_mono {x y : ℚ} (h : x ≤ y) : stepsOf x ≤ stepsOf y := by
  have hx := scaledBy_exponentOf x
  have hy := scaledBy_exponentOf y
  unfold stepsOf
  rcases (hx.le hy h).lt_or_eq with hlt | heq
  · -- The significand below reaches at most the leading bit of the next exponent.
    have hle := hx.significandOf_le
    have hlead := hy.le_significandOf.resolve_left (hx.lowest.trans_lt hlt).ne'
    omega
  · rw [← heq]
    have := roundEven_mono (div_le_div_of_nonneg_right h (two_zpow_pos (exponentOf x)).le)
    exact add_le_add_right this _

theorem stepsOf_nonneg {x : ℚ} (h : 0 ≤ x) : 0 ≤ stepsOf x := by
  have hlow := (scaledBy_exponentOf x).lowest
  have := significandOf_nonneg h (exponentOf x)
  unfold stepsOf
  omega

theorem stepsOf_zero : stepsOf 0 = 0 := by
  have h : ScaledBy 0 (-1074) := ⟨le_rfl, two_zpow_pos _, .inl rfl⟩
  rw [stepsOf, h.exponentOf_eq, significandOf, zero_div, ← Int.cast_zero, roundEven_intCast]
  rfl

/-- The place of infinity, one beyond the greatest number. -/
def infinitePlace : ℤ := 2047 * 2 ^ 52

/-- The place of the number to which a rational rounds. -/
def nearest (x : ℚ) : ℤ :=
  if 0 ≤ x then min (stepsOf x) infinitePlace else -min (stepsOf (-x)) infinitePlace

theorem nearest_of_nonneg {x : ℚ} (h : 0 ≤ x) : nearest x = min (stepsOf x) infinitePlace := if_pos h

theorem nearest_zero : nearest 0 = 0 := by
  rw [nearest_of_nonneg le_rfl, stepsOf_zero]
  decide

theorem nearest_neg (x : ℚ) : nearest (-x) = -nearest x := by
  rcases lt_trichotomy x 0 with h | rfl | h
  · rw [nearest_of_nonneg (by linarith), nearest, if_neg (by linarith), neg_neg]
  · rw [neg_zero, nearest_zero, neg_zero]
  · rw [nearest_of_nonneg h.le, nearest, if_neg (by linarith), neg_neg]

theorem nearest_nonneg {x : ℚ} (h : 0 ≤ x) : 0 ≤ nearest x := by
  rw [nearest_of_nonneg h]
  exact le_min (stepsOf_nonneg h) (by decide)

theorem nearest_mono {x y : ℚ} (h : x ≤ y) : nearest x ≤ nearest y := by
  rcases le_total 0 x with hx | hx
  · rw [nearest_of_nonneg hx, nearest_of_nonneg (hx.trans h)]
    exact min_le_min_right _ (stepsOf_mono h)
  rcases le_total 0 y with hy | hy
  · have := nearest_nonneg (neg_nonneg.2 hx)
    have := nearest_nonneg hy
    have := nearest_neg x
    omega
  · have hneg : nearest (-y) ≤ nearest (-x) := by
      rw [nearest_of_nonneg (neg_nonneg.2 hx), nearest_of_nonneg (neg_nonneg.2 hy)]
      exact min_le_min_right _ (stepsOf_mono (neg_le_neg h))
    rw [nearest_neg, nearest_neg] at hneg
    exact neg_le_neg_iff.1 hneg

/-! ## Packing -/

/-- What is read back of a number that was packed. -/
def repack (a : UnpackedFloat) : UnpackedFloat :=
  unpack Format.binary64 (UnpackedFloat.pack Format.binary64 a)

theorem repack_notANumber : repack .notANumber = .notANumber := rfl

theorem repack_infinity (s : Sign) : repack (.infinity s) = .infinity s := by cases s <;> rfl

theorem repack_zero (s : Sign) : repack (.zero s) = .zero s := by cases s <;> rfl

section Finite

variable {m : ℕ} {e : ℤ} {hm : 0 < m}

theorem biased_eq (e : ℤ) : e + Format.binary64.exponentBias +
    Format.binary64.mantissaBitsWithoutImplicit = e + 1075 := by
  have hbias : ((Format.binary64.exponentBias : ℕ) : ℤ) = 1023 := rfl
  have hbits : ((Format.binary64.mantissaBitsWithoutImplicit : ℕ) : ℤ) = 52 := rfl
  omega

/-- A number beyond the highest exponent is packed as infinite. -/
theorem repack_of_lt (s : Sign) (h : 971 < e) : repack (.finite s m e hm) = .infinity s := by
  rw [repack, UnpackedFloat.pack, biased_eq]
  rw [if_pos (show 2 ^ 11 ≤ (e + 1075).toNat + 1 by omega)]
  exact repack_infinity s

theorem repack_subnormal (s : Sign) (h : m < 2 ^ 52) :
    repack (.finite s m (-1074) hm) = .finite s m (-1074) hm := by
  have hlog : m.log2 < 52 := (Nat.log2_lt hm.ne').2 h
  have hmantissa : (BitVec.ofNat 52 m).toNat = m := by
    rw [BitVec.toNat_ofNat]
    exact Nat.mod_eq_of_lt h
  have hne : BitVec.ofNat 52 m ≠ 0#52 := by
    intro heq
    rw [heq] at hmantissa
    exact hm.ne hmantissa
  have hpack : UnpackedFloat.pack Format.binary64 (.finite s m (-1074) hm) =
      packComponents Format.binary64 s 0#11 (BitVec.ofNat 52 m) := by
    rw [UnpackedFloat.pack]
    rw [if_neg (by decide)]
    exact if_neg (show m.log2 + 1 ≠ 53 by omega)
  rw [repack, hpack, UnpackedFloat.unpack]
  simp only [unpackMantissa_packComponents, unpackExponent_packComponents,
    sign_unpackSign_packComponents]
  rw [if_neg (by decide), if_pos trivial, dif_neg hne]
  exact finite_congr hmantissa rfl

/-- A number in the range of the format is read back. -/
theorem InRange.repack_eq (h : InRange m e) (s : Sign) :
    repack (.finite s m e hm) = .finite s m e hm := by
  rcases Nat.lt_or_ge m (2 ^ 52) with hlt | hge
  · obtain rfl : e = -1074 := h.leading.resolve_right (Nat.not_le.2 hlt)
    exact repack_subnormal s hlt
  · exact Normal.unpack_pack ⟨hge, h.lt, h.lowest, h.highest⟩ s

end Finite

theorem Canonical.repack_eq {a : UnpackedFloat} (h : Canonical a) : repack a = a := by
  cases a with
  | notANumber => exact repack_notANumber
  | infinity s => exact repack_infinity s
  | zero s => exact repack_zero s
  | finite s m e hm => exact InRange.repack_eq h s

/-! ## Rounding what an operation computes -/

/-- A number with a sign. -/
def signed (s : Sign) (x : ℚ) : ℚ :=
  match s with
  | .negative => -x
  | .positive => x

theorem nearest_signed (s : Sign) (x : ℚ) : nearest (signed s x) = s.apply (nearest x) := by
  cases s with
  | negative => exact nearest_neg x
  | positive => rfl

/-- The result is packed as the number nearest to a rational. -/
structure Rounds (a : UnpackedFloat) (x : ℚ) : Prop where
  defined : repack a ≠ .notANumber
  place_eq : place (repack a) = nearest x

/-- A significand in place is packed as the number that has it, or as infinite. -/
theorem rounds_finite (s : Sign) {m : ℕ} {e : ℤ} {hm : 0 < m} {x : ℚ} (hx : 0 ≤ x) (hlt : m < 2 ^ 53)
    (hlow : -1074 ≤ e) (hlead : e = -1074 ∨ 2 ^ 52 ≤ m) (hsteps : stepsOf x = steps m e) :
    Rounds (.finite s m e hm) (signed s x) := by
  have hnearest : nearest x = min (steps m e) infinitePlace := by rw [nearest_of_nonneg hx, hsteps]
  rcases le_or_gt e 971 with he | he
  · have hrange : InRange m e := ⟨hm, hlt, hlow, he, hlead⟩
    have hle := (steps_lt_infinity hrange).le
    refine ⟨?_, ?_⟩ <;> rw [hrange.repack_eq s]
    · exact UnpackedFloat.noConfusion
    · rw [nearest_signed, hnearest, min_eq_left (show steps m e ≤ infinitePlace from hle)]
      rfl
  · have hle : infinitePlace ≤ steps m e := by
      unfold infinitePlace steps
      omega
    refine ⟨?_, ?_⟩ <;> rw [repack_of_lt s he]
    · exact UnpackedFloat.noConfusion
    · rw [nearest_signed, hnearest, min_eq_right hle]
      rfl

theorem rounds_zero (s : Sign) : Rounds (.zero s) 0 := by
  refine ⟨?_, ?_⟩ <;> rw [repack_zero]
  · exact UnpackedFloat.noConfusion
  · rw [nearest_zero]
    rfl

theorem targetExponent_eq (m : ℕ) (e : ℤ) : Format.binary64.targetExponent (totalExponent m e) =
    max (m.log2 + e - 52) (-1074) := by
  have hbits : ((Format.binary64.mantissaBits : ℕ) : ℤ) = 53 := rfl
  have hlowest : Format.binary64.minExponent = -1074 := rfl
  rw [totalExponent, Format.targetExponent, hbits, hlowest]
  congr 1
  ring

theorem shiftToTargetExponent_of_lt {m : ℕ} {e : ℤ} (hlt : m < 2 ^ 53) (hlow : -1074 ≤ e) :
    shiftToTargetExponent Format.binary64 m e .exact = (⟨m, false, false⟩, e) := by
  have hlog : m.log2 ≤ 52 := by
    rcases Nat.eq_zero_or_pos m with rfl | hm
    · decide
    · exact Nat.le_of_lt_succ ((Nat.log2_lt hm.ne').2 hlt)
  rw [shiftToTargetExponent, targetExponent_eq, shiftToExponent,
    show (max (m.log2 + e - 52) (-1074) - e).toNat = 0 by omega]
  exact Prod.ext rfl (by simp)

/-- A significand that rounding carried beyond its bits is shifted back by one. -/
theorem shiftToTargetExponent_two_pow {e : ℤ} (hlow : -1074 ≤ e) :
    shiftToTargetExponent Format.binary64 (2 ^ 53) e .exact = (⟨2 ^ 52, false, false⟩, e + 1) := by
  rw [shiftToTargetExponent, targetExponent_eq, shiftToExponent, Nat.log2_two_pow,
    show (max (((53 : ℕ) : ℤ) + e - 52) (-1074) - e).toNat = 1 by omega]
  exact Prod.ext rfl rfl

section Round

variable {m : ℕ} {e : ℤ} {x : ℚ}

/-- A rounded significand is brought into place and packed. -/
theorem rounds_shifted (s : Sign) (hx : 0 ≤ x) (hscaled : ScaledBy x e) (hm : m = significandOf x e)
    {final : ExtendedMantissa × ℤ}
    (hfinal : final = shiftToTargetExponent Format.binary64 m e .exact) :
    Rounds (if h : final.1.mantissa = 0 then .zero s
      else .finite s final.1.mantissa final.2 (Nat.pos_of_ne_zero h)) (signed s x) := by
  have hsteps : stepsOf x = steps m e := by
    rw [stepsOf, hscaled.exponentOf_eq, ← hm]
    rfl
  have hle : m ≤ 2 ^ 53 := by exact_mod_cast hm ▸ hscaled.significandOf_le
  have hlead : e = -1074 ∨ 2 ^ 52 ≤ m := hscaled.le_significandOf.imp_right fun h => by
    exact_mod_cast hm ▸ h
  rcases hle.lt_or_eq with hlt | rfl
  · rw [shiftToTargetExponent_of_lt hlt hscaled.lowest] at hfinal
    subst hfinal
    split
    · next hzero =>
      -- The significand is in place, so it vanishes at the lowest exponent only.
      dsimp only at hzero
      subst hzero
      have hlow : e = -1074 := hlead.resolve_right (by norm_num)
      have hnearest : nearest x = 0 := by
        rw [nearest_of_nonneg hx, hsteps, hlow]
        decide
      refine ⟨(rounds_zero s).defined, (rounds_zero s).place_eq.trans ?_⟩
      rw [nearest_signed, hnearest, nearest_zero]
      cases s <;> rfl
    · exact rounds_finite s hx hlt hscaled.lowest hlead hsteps
  · rw [shiftToTargetExponent_two_pow hscaled.lowest] at hfinal
    subst hfinal
    rw [dif_neg (by norm_num)]
    refine rounds_finite s hx (by norm_num) (by linarith [hscaled.lowest]) (.inr le_rfl) ?_
    rw [hsteps, steps, steps]
    push_cast
    ring

/-- The format rounds in the steps that the size of a number calls for. -/
theorem scaledBy_targetExponent (hle : m ≤ x) (hlt : x < m + 1)
    (he : e ≤ Format.binary64.targetExponent (totalExponent m e)) :
    ScaledBy (x * 2 ^ e) (Format.binary64.targetExponent (totalExponent m e)) := by
  rw [targetExponent_eq] at he ⊢
  refine ⟨le_max_right _ _, ?_, ?_⟩
  · have hpow : x < 2 ^ (m.log2 + 1) := by
      have : m + 1 ≤ 2 ^ (m.log2 + 1) := Nat.lt_log2_self
      exact hlt.trans_le (by exact_mod_cast this)
    calc x * 2 ^ e < 2 ^ (m.log2 + 1) * 2 ^ e := mul_lt_mul_of_pos_right hpow (two_zpow_pos e)
      _ = 2 ^ (e + (m.log2 + 1 : ℕ)) := (two_zpow_add _ _).symm
      _ ≤ 2 ^ (max (m.log2 + e - 52) (-1074) + 53) := by
        refine zpow_le_zpow_right₀ (by norm_num) ?_
        push_cast
        omega
  · rw [or_iff_not_imp_left]
    intro hne
    have hm : m ≠ 0 := by
      rintro rfl
      rw [Nat.log2_zero] at he hne
      omega
    have hpow : (2 : ℚ) ^ m.log2 ≤ x := by
      have := Nat.log2_self_le hm
      exact le_trans (by exact_mod_cast this) hle
    calc (2 : ℚ) ^ (max (m.log2 + e - 52) (-1074) + 52) = 2 ^ (e + (m.log2 : ℕ)) := by
          congr 1
          omega
      _ = 2 ^ m.log2 * 2 ^ e := two_zpow_add _ _
      _ ≤ x * 2 ^ e := mul_le_mul_of_nonneg_right hpow (two_zpow_pos e).le

/-- A significand with what is known of the bits behind it is packed as the number nearest to its value. -/
theorem rounds_roundWithAccuracy (s : Sign) {accuracy : Accuracy}
    (h : Represents (.ofMantissaAndAccuracy m accuracy) x)
    (he : e ≤ Format.binary64.targetExponent (totalExponent m e)) :
    Rounds (roundWithAccuracy Format.binary64 s m e accuracy) (signed s (x * 2 ^ e)) := by
  have hmantissa : (ExtendedMantissa.ofMantissaAndAccuracy m accuracy).mantissa = m := by
    rcases accuracy with _ | ⟨_ | _ | _⟩ <;> rfl
  obtain ⟨hle, hlt⟩ := h.le_and_lt
  rw [hmantissa] at hle hlt
  have hscaled := scaledBy_targetExponent hle hlt he
  obtain ⟨k, hk⟩ := Int.le.dest he
  have hshift : shiftToTargetExponent Format.binary64 m e accuracy =
      (ExtendedMantissa.ofMantissaAndAccuracy m accuracy >>> k,
        Format.binary64.targetExponent (totalExponent m e)) := by
    rw [shiftToTargetExponent, shiftToExponent, ← hk, add_sub_cancel_left, Int.toNat_natCast]
  have hrounded : ((ExtendedMantissa.ofMantissaAndAccuracy m accuracy >>> k).roundedMantissa : ℤ) =
      significandOf (x * 2 ^ e) (Format.binary64.targetExponent (totalExponent m e)) := by
    rw [(h.shift k).roundedMantissa_eq, significandOf, ← hk, two_zpow_add,
      mul_div_mul_right _ _ (two_zpow_pos e).ne']
  have hx : 0 ≤ x * 2 ^ e := mul_nonneg (m.cast_nonneg.trans hle) (two_zpow_pos e).le
  rw [roundWithAccuracy, hshift]
  exact rounds_shifted s hx hscaled hrounded rfl

end Round

end RhythmChart.Binary64
