import Mathlib
import RhythmChart.Proofs.Scalar.Binary64

/-!
# Naturals among the binary64 numbers

A natural below `2 ^ 53` has a binary64 number of its own: its bits shifted to the left until the leading
one is in place (`unpack_ofNat`).  So such naturals keep their order (`ofNat_lt_ofNat`).
-/

namespace RhythmChart.Binary64

open Float.Model Float.Model.UnpackedFloat

/-! ## Normal numbers -/

/-- The leading bit of the significand is set. -/
structure Normal (m : Nat) (e : Int) : Prop where
  leading : 2 ^ 52 ≤ m
  lt : m < 2 ^ 53
  lowest : -1074 ≤ e
  highest : e ≤ 971

theorem log2_mul_two_pow {m : Nat} (hm : m ≠ 0) (k : Nat) : (m * 2 ^ k).log2 = m.log2 + k := by
  rw [Nat.log2_eq_iff (Nat.mul_ne_zero hm (Nat.two_pow_pos k).ne')]
  constructor
  · rw [Nat.pow_add]
    exact Nat.mul_le_mul_right _ (Nat.log2_self_le hm)
  · rw [Nat.add_right_comm, Nat.pow_add]
    exact Nat.mul_lt_mul_of_pos_right Nat.lt_log2_self (Nat.two_pow_pos k)

/-- Zeros that are shifted out leave no trace. -/
theorem repeat_shiftRightOne (m k : Nat) :
    Nat.repeat ExtendedMantissa.shiftRightOne k ⟨m * 2 ^ k, false, false⟩ = ⟨m, false, false⟩ := by
  induction k generalizing m with
  | zero => rw [Nat.pow_zero, Nat.mul_one, Nat.repeat]
  | succ k ih =>
    have hsplit : m * 2 ^ (k + 1) = m * 2 * 2 ^ k := by rw [Nat.pow_succ', Nat.mul_assoc]
    rw [Nat.repeat, hsplit, ih]
    simp [ExtendedMantissa.shiftRightOne]

theorem finite_congr {s : Sign} {m m' : Nat} {e e' : Int} {hm : 0 < m} {hm' : 0 < m'} (h : m = m')
    (he : e = e') : UnpackedFloat.finite s m e hm = .finite s m' e' hm' := by
  subst h he
  rfl

theorem one_append_pos (y : BitVec 52) : 0 < (1#1 ++ y).toNat := by
  rw [toNat_one_append]
  exact Nat.add_pos_left (Nat.two_pow_pos 52) _

theorem sign_unpackSign_packComponents (s : Sign) (x : BitVec 11) (y : BitVec 52) :
    Sign.ofBitVec (unpackSign (packComponents Format.binary64 s x y)) = s := by
  have hsign : unpackSign (packComponents Format.binary64 s x y) = s.toBitVec := by
    apply BitVec.eq_of_getLsbD_eq
    intro i hi
    obtain rfl : i = 0 := by omega
    have hbit : (s.toBitVec ++ x ++ y).getLsbD 63 = s.toBitVec.getLsbD 0 := by
      rw [BitVec.getLsbD_append, if_neg (by decide), BitVec.getLsbD_append, if_neg (by decide)]
    simp only [unpackSign, Nat.reduceAdd, packComponents, BitVec.cast_eq, Nat.lt_add_one,
      BitVec.getLsbD_eq_getElem, BitVec.getElem_extract, Nat.add_zero]
    exact hbit
  rw [hsign]
  cases s <;> rfl

/-- The fields of a normal number are read back. -/
theorem unpack_packComponents (s : Sign) {x : BitVec 11} (y : BitVec 52) (hbottom : x.toNat ≠ 0)
    (htop : x.toNat ≠ 2047) :
    unpack Format.binary64 (packComponents Format.binary64 s x y) =
      .finite s (1#1 ++ y).toNat (x.toNat - 1075) (one_append_pos y) := by
  have hbottom : x ≠ 0#11 := fun h => hbottom (congrArg BitVec.toNat h)
  have htop : x ≠ -1#11 := fun h => htop (congrArg BitVec.toNat h)
  rw [UnpackedFloat.unpack]
  simp only [unpackMantissa_packComponents, unpackExponent_packComponents,
    sign_unpackSign_packComponents]
  rw [if_neg htop, if_neg hbottom]
  rfl

namespace Normal

variable {m : Nat} {e : Int}

theorem pos (h : Normal m e) : 0 < m := Nat.lt_of_lt_of_le (by decide) h.leading

theorem inRange (h : Normal m e) : InRange m e :=
  ⟨h.pos, h.lt, h.lowest, h.highest, .inr h.leading⟩

theorem log2_eq (h : Normal m e) : m.log2 = 52 :=
  (Nat.log2_eq_iff h.pos.ne').2 ⟨h.leading, h.lt⟩

/-- The format calls for the exponent that a normal number has. -/
theorem target_eq (h : Normal m e) (k : Nat) :
    Format.binary64.targetExponent (totalExponent (m * 2 ^ k) (e - k)) = e := by
  have hbits : ((Format.binary64.mantissaBits : Nat) : Int) = 53 := rfl
  have hlowest : Format.binary64.minExponent = -1074 := rfl
  have := h.lowest
  rw [totalExponent, log2_mul_two_pow h.pos.ne', h.log2_eq, Format.targetExponent, hbits, hlowest]
  omega

/-- A normal number with zeros behind it is shifted to its own significand. -/
theorem shift_eq (h : Normal m e) (k : Nat) :
    shiftToTargetExponent Format.binary64 (m * 2 ^ k) (e - k) .exact = (⟨m, false, false⟩, e) := by
  have hk : (e - (e - k)).toNat = k := by omega
  rw [shiftToTargetExponent, h.target_eq, shiftToExponent, hk]
  refine Prod.ext (repeat_shiftRightOne m k) ?_
  change e - k + k = e
  omega

/-- A normal number is rounded to itself. -/
theorem round_eq (h : Normal m e) (s : Sign) (k : Nat) :
    roundWithAccuracy Format.binary64 s (m * 2 ^ k) (e - k) .exact = .finite s m e h.pos := by
  have hself := h.shift_eq 0
  rw [Nat.pow_zero, Nat.mul_one, show e - ((0 : Nat) : Int) = e by omega] at hself
  -- The second shift finds the significand in place.
  have hlast (r : ExtendedMantissa × Int) (hr : r = (⟨m, false, false⟩, e)) :
      (if h : r.1.mantissa = 0 then .zero s
        else .finite s r.1.mantissa r.2 (Nat.pos_of_ne_zero h)) = UnpackedFloat.finite s m e h.pos := by
    subst hr
    exact dif_neg h.pos.ne'
  let first := shiftToTargetExponent Format.binary64 (m * 2 ^ k) (e - k) .exact
  refine hlast (shiftToTargetExponent Format.binary64 first.1.roundedMantissa first.2 .exact) ?_
  rw [show first = (⟨m, false, false⟩, e) from h.shift_eq k]
  exact hself

/-- Packing a normal number loses nothing. -/
theorem unpack_pack (h : Normal m e) (s : Sign) :
    unpack Format.binary64 (UnpackedFloat.pack Format.binary64 (.finite s m e h.pos)) =
      .finite s m e h.pos := by
  have hbias : ((Format.binary64.exponentBias : Nat) : Int) = 1023 := rfl
  have hbits : ((Format.binary64.mantissaBitsWithoutImplicit : Nat) : Int) = 52 := rfl
  have hhighest := h.highest
  have hexponent : (BitVec.ofNat 11 (e + 1023 + 52).toNat).toNat = (e + 1075).toNat := by
    have := h.lowest
    rw [BitVec.toNat_ofNat]
    omega
  have hmantissa : (1#1 ++ BitVec.ofNat 52 m).toNat = m := by
    have := h.leading
    have := h.lt
    rw [toNat_one_append, BitVec.toNat_ofNat]
    omega
  have hpack : UnpackedFloat.pack Format.binary64 (.finite s m e h.pos) =
      packComponents Format.binary64 s (BitVec.ofNat 11 (e + 1023 + 52).toNat)
        (BitVec.ofNat 52 m) := by
    rw [UnpackedFloat.pack]
    simp only [h.log2_eq, hbias, hbits]
    rw [if_neg (by omega)]
    exact if_pos rfl
  have hlowest := h.lowest
  rw [hpack, unpack_packComponents s _ (by omega) (by omega)]
  exact finite_congr hmantissa (by omega)

/-- Multiplying by one changes nothing. -/
theorem mul_one (h : Normal m e) :
    UnpackedFloat.mul Format.binary64 (.finite .positive m e h.pos)
      (.finite .positive (2 ^ 52) (-52) (by decide)) = .finite .positive m e h.pos :=
  h.round_eq .positive 52

end Normal

/-! ## Naturals -/

/-- The bits of a natural, shifted until the leading one is in place. -/
def significand (n : Nat) : Nat := n * 2 ^ (52 - n.log2)

theorem normal_significand {n : Nat} (hpos : n ≠ 0) (hlt : n < 2 ^ 53) :
    Normal (significand n) (n.log2 - 52) := by
  have hlog : n.log2 ≤ 52 := Nat.le_of_lt_succ ((Nat.log2_lt hpos).2 hlt)
  have hsig : (significand n).log2 = 52 := by
    rw [significand, log2_mul_two_pow hpos]
    omega
  have hne : significand n ≠ 0 := Nat.mul_ne_zero hpos (Nat.two_pow_pos _).ne'
  obtain ⟨hleading, hbound⟩ := (Nat.log2_eq_iff hne).1 hsig
  exact ⟨hleading, hbound, by omega, by omega⟩

theorem ofNat_model {n : Nat} (hpos : n ≠ 0) (hlt : n < 2 ^ 53) :
    UnpackedFloat.ofNat Format.binary64 n =
      .finite .positive (significand n) (n.log2 - 52) (normal_significand hpos hlt).pos := by
  have h := normal_significand hpos hlt
  have htarget : Format.binary64.targetExponent (totalExponent n 0) = n.log2 - 52 := by
    have hbits : ((Format.binary64.mantissaBits : Nat) : Int) = 53 := rfl
    have hlowest : Format.binary64.minExponent = -1074 := rfl
    rw [totalExponent, Format.targetExponent, hbits, hlowest]
    omega
  have hround := h.round_eq .positive 0
  rw [Nat.pow_zero, Nat.mul_one, show (n.log2 : Int) - 52 - ((0 : Nat) : Int) = n.log2 - 52 by omega]
    at hround
  have hlog : n.log2 ≤ 52 := Nat.le_of_lt_succ ((Nat.log2_lt hpos).2 hlt)
  rw [UnpackedFloat.ofNat, UnpackedFloat.ofInt, UnpackedFloat.normalize,
    Int.compare_eq_gt.2 (by omega)]
  change UnpackedFloat.round Format.binary64 .positive n 0 = _
  rw [UnpackedFloat.round, htarget, decreaseExponent,
    show (0 - ((n.log2 : Int) - 52)).toNat = 52 - n.log2 by omega, Nat.shiftLeft_eq,
    show 0 - ((52 - n.log2 : Nat) : Int) = n.log2 - 52 by omega]
  exact hround

/-- A natural below `2 ^ 53` has a number of its own. -/
theorem unpack_ofNat {n : Nat} (hpos : n ≠ 0) (hlt : n < 2 ^ 53) :
    (Float.ofNat n).toModel.unpack =
      .finite .positive (significand n) (n.log2 - 52) (normal_significand hpos hlt).pos := by
  have h := normal_significand hpos hlt
  have hone : (Float.ofBits 0x3FF0000000000000).toModel.unpack =
      .finite .positive (2 ^ 52) (-52) (by decide) := rfl
  have hnat : n.toUInt64.toNat = n := Nat.mod_eq_of_lt (by omega)
  have hconvert : n.toUInt64.toFloat.toModel.unpack =
      .finite .positive (significand n) (n.log2 - 52) h.pos := by
    change unpack Format.binary64
      (UnpackedFloat.pack Format.binary64 (UnpackedFloat.ofNat Format.binary64 n.toUInt64.toNat)) = _
    rw [hnat, ofNat_model hpos hlt, h.unpack_pack]
  have hscientific : Float.ofNat n = n.toUInt64.toFloat * Float.ofBits 0x3FF0000000000000 :=
    dif_pos ⟨hlt, by decide⟩
  rw [hscientific]
  change unpack Format.binary64 (UnpackedFloat.pack Format.binary64
    (UnpackedFloat.mul Format.binary64 n.toUInt64.toFloat.toModel.unpack
      (Float.ofBits 0x3FF0000000000000).toModel.unpack)) = _
  rw [hconvert, hone, h.mul_one, h.unpack_pack]

theorem unpack_ofNat_zero : (Float.ofNat 0).toModel.unpack = .zero .positive := rfl

theorem isNaN_ofNat {n : Nat} (hlt : n < 2 ^ 53) : (Float.ofNat n).isNaN = false := by
  rw [isNaN_eq_false_iff]
  by_cases hpos : n = 0
  · subst hpos
    rw [unpack_ofNat_zero]
    exact UnpackedFloat.noConfusion
  · rw [unpack_ofNat hpos hlt]
    exact UnpackedFloat.noConfusion

/-- Naturals below `2 ^ 53` keep their order. -/
theorem ofNat_lt_ofNat {m n : Nat} (h : m < n) (hn : n < 2 ^ 53) : Float.ofNat m < Float.ofNat n := by
  have hm : m < 2 ^ 53 := Nat.lt_trans h hn
  have hnpos : n ≠ 0 := Nat.ne_zero_of_lt h
  have hnormal := normal_significand hnpos hn
  refine lt_iff.2 ⟨isNaN_ofNat hm, isNaN_ofNat hn, ?_⟩
  have hplace : position (Float.ofNat n) = steps (significand n) (n.log2 - 52) := by
    rw [position, unpack_ofNat hnpos hn]
    rfl
  rw [hplace]
  by_cases hmpos : m = 0
  · subst hmpos
    rw [position, unpack_ofNat_zero]
    exact steps_pos hnormal.inRange
  · have hplace : position (Float.ofNat m) = steps (significand m) (m.log2 - 52) := by
      rw [position, unpack_ofNat hmpos hm]
      rfl
    rw [hplace, ← Int.compare_eq_lt,
      ← compare_steps (normal_significand hmpos hm).inRange hnormal.inRange, Ordering.then_eq_lt,
      Int.compare_eq_lt, Int.compare_eq_eq, Nat.compare_eq_lt]
    -- The leading bit decides, and the other bits do if it is the same.
    have hlog : m.log2 ≤ n.log2 :=
      (Nat.le_log2 hnpos).2 (Nat.le_trans (Nat.log2_self_le hmpos) (Nat.le_of_lt h))
    by_cases heq : m.log2 = n.log2
    · refine .inr ⟨by rw [heq], ?_⟩
      rw [significand, significand, heq]
      exact Nat.mul_lt_mul_of_pos_right h (Nat.two_pow_pos _)
    · exact .inl (by omega)

end RhythmChart.Binary64
