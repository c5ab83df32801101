import RhythmChart.Proofs.Scalar.Monotone

/-!
# Signs of binary64 numbers

The total order tells the negative zero from zero, which no numeric comparison does.  A sum is the negative
zero only if both its summands are (`isMinusZero_of_add`), and a product or a quotient of numbers without a
minus sign has none (`Unsigned.mul`, `Unsigned.div`).  Where the negative zero is ruled out, the numeric order
is the total order (`rank_le_rank`).
-/

namespace RhythmChart.Binary64

open Float.Model Float.Model.UnpackedFloat

/-! ## The negative zero -/

/-- The number is the negative zero. -/
def IsMinusZero (x : Float) : Prop := x.toModel.unpack = .zero .negative

variable {x y r : Float} {a b : UnpackedFloat}

theorem isMinusZero_of_rank (h : rank x = -1) : IsMinusZero x := by
  have hrank : rank x = if x.toModel.toBits.toBitVec.toNat < 2 ^ 63
      then (x.toModel.toBits.toBitVec.toNat : ℤ) else 2 ^ 63 - 1 - x.toModel.toBits.toBitVec.toNat := rfl
  have hzero : (packedZero Format.binary64 .negative).toNat = 2 ^ 63 := by decide
  have hbits : x.toModel.toBits.toBitVec = packedZero Format.binary64 .negative := by
    apply BitVec.eq_of_toNat_eq
    rw [hzero]
    split at hrank <;> omega
  change unpack Format.binary64 x.toModel.toBits.toBitVec = _
  rw [hbits]
  exact repack_zero .negative

/-- Numbers in the numeric order are in the total order, unless the greater one is the negative zero. -/
theorem rank_le_rank (h : x ≤ y) (hy : ¬ IsMinusZero y) : rank x ≤ rank y := by
  obtain ⟨hx, hdefined, hle⟩ := le_iff.1 h
  have hne : rank y ≠ -1 := mt isMinusZero_of_rank hy
  have := position_eq_rank_or hx
  have := position_eq_rank_or hdefined
  omega

/-! ## Sums -/

/-- The smallest positive number. -/
theorem nearest_two_zpow : nearest (2 ^ (-1074 : ℤ)) = 1 := by
  have hrange : Canonical (.finite .positive 1 (-1074) one_pos) := by
    refine ⟨?_, ?_, ?_, ?_, ?_⟩ <;> decide
  have hnearest := hrange.nearest_valueOf rfl
  rw [valueOf, Nat.cast_one, one_mul] at hnearest
  exact hnearest

/-- What is not zero and no smaller than the smallest number is not rounded to zero. -/
theorem nearest_ne_zero {m e : ℤ} (hm : m ≠ 0) (he : -1074 ≤ e) : nearest (m * 2 ^ e) ≠ 0 := by
  have hpositive {n : ℤ} (hn : 0 < n) : 0 < nearest (n * 2 ^ e) := by
    have hle : (2 : ℚ) ^ (-1074 : ℤ) ≤ n * 2 ^ e := by
      have hone : (1 : ℚ) ≤ n := by exact_mod_cast hn
      have hpow : (2 : ℚ) ^ (-1074 : ℤ) ≤ 2 ^ e := zpow_le_zpow_right₀ (by norm_num) he
      calc (2 : ℚ) ^ (-1074 : ℤ) ≤ 2 ^ e := hpow
        _ ≤ n * 2 ^ e := le_mul_of_one_le_left (two_zpow_pos e).le hone
    have := nearest_mono hle
    rw [nearest_two_zpow] at this
    omega
  rcases hm.lt_or_gt with hneg | hpos
  · have := hpositive (neg_pos.2 hneg)
    rw [Int.cast_neg, neg_mul, nearest_neg] at this
    omega
  · exact (hpositive hpos).ne'

/-- A sum of finite numbers with significands is never rounded to the negative zero. -/
theorem repack_add_finite_ne {s s' : Sign} {m m' : ℕ} {e e' : ℤ} {hm : 0 < m} {hm' : 0 < m'}
    (ha : InRange m e) (hb : InRange m' e') :
    repack (UnpackedFloat.add Format.binary64 (.finite s m e hm) (.finite s' m' e' hm')) ≠
      .zero .negative := by
  intro h
  rw [UnpackedFloat.add] at h
  dsimp only at h
  generalize s.apply _ + s'.apply _ = n at h
  have hlow : -1074 ≤ min e e' := le_min ha.lowest hb.lowest
  by_cases hn : n = 0
  · rw [hn] at h
    exact absurd h (by rw [UnpackedFloat.normalize, Int.compare_eq_eq.2 rfl, repack_zero]; simp)
  · have hplace := (rounds_normalize n (min e e')).place_eq
    rw [h] at hplace
    exact nearest_ne_zero hn hlow hplace.symm

theorem eq_zero_of_repack_add (ha : Canonical a) (hb : Canonical b)
    (h : repack (UnpackedFloat.add Format.binary64 a b) = .zero .negative) :
    a = .zero .negative ∧ b = .zero .negative := by
  have hdefined : repack (UnpackedFloat.add Format.binary64 a b) ≠ .notANumber := by
    rw [h]
    exact UnpackedFloat.noConfusion
  have hinfinity (s : Sign) : ¬ (a = .infinity s ∨ b = .infinity s) := fun hinf => by
    rw [repack_add_infinity hinf hdefined] at h
    cases h
  have hpositive (hzero : repack (.zero .positive) = .zero .negative) : False := by
    rw [repack_zero] at hzero
    cases hzero
  obtain ⟨hna, hnb⟩ := ne_of_add hdefined
  cases a with
  | notANumber => exact absurd rfl hna
  | infinity s => exact absurd (.inl rfl) (hinfinity s)
  | zero s =>
    cases b with
    | notANumber => exact absurd rfl hnb
    | infinity s' => exact absurd (.inr rfl) (hinfinity s')
    | zero s' =>
      cases s with
      | positive => cases s' <;> exact (hpositive h).elim
      | negative =>
        cases s' with
        | positive => exact (hpositive h).elim
        | negative => exact ⟨rfl, rfl⟩
    | finite s' m' e' hm' =>
      have hsum : repack (.finite s' m' e' hm') = .zero .negative := h
      rw [hb.repack_eq] at hsum
      cases hsum
  | finite s m e hm =>
    cases b with
    | notANumber => exact absurd rfl hnb
    | infinity s' => exact absurd (.inr rfl) (hinfinity s')
    | zero s' =>
      have hsum : repack (.finite s m e hm) = .zero .negative := h
      rw [ha.repack_eq] at hsum
      cases hsum
    | finite s' m' e' hm' => exact absurd h (repack_add_finite_ne ha hb)

/-- A sum is the negative zero only if both summands are. -/
theorem isMinusZero_of_add (h : IsMinusZero (x + y)) : IsMinusZero x ∧ IsMinusZero y :=
  eq_zero_of_repack_add (canonical x) (canonical y) ((unpack_add x y).symm.trans h)

theorem isMinusZero_of_sub (h : IsMinusZero (x - y)) : IsMinusZero x :=
  (eq_zero_of_repack_add (canonical x) (canonical y).neg ((unpack_sub x y).symm.trans h)).1

/-! ## Products and quotients -/

/-- There is no minus sign. -/
inductive Unsigned : UnpackedFloat → Prop
  | notANumber : Unsigned .notANumber
  | infinity : Unsigned (.infinity .positive)
  | zero : Unsigned (.zero .positive)
  | finite (m : ℕ) (e : ℤ) (hm : 0 < m) : Unsigned (.finite .positive m e hm)

/-- What is read back has the sign that was packed. -/
theorem unsigned_unpack {bits : BitVec Format.binary64.numBits}
    (h : Sign.ofBitVec (unpackSign bits) = .positive) : Unsigned (unpack Format.binary64 bits) := by
  rw [UnpackedFloat.unpack, h]
  dsimp only
  split
  · split
    · exact .infinity
    · exact .notANumber
  · split
    · split
      · exact .zero
      · exact .finite ..
    · exact .finite ..

theorem Unsigned.repack (h : Unsigned a) : Unsigned (repack a) := by
  cases h with
  | notANumber => exact .notANumber
  | infinity => exact .infinity
  | zero => exact .zero
  | finite m e hm =>
    apply unsigned_unpack
    rw [UnpackedFloat.pack]
    dsimp only
    split
    · exact sign_unpackSign_packComponents ..
    · split <;> exact sign_unpackSign_packComponents ..

theorem unsigned_roundWithAccuracy (m : ℕ) (e : ℤ) (accuracy : Accuracy) :
    Unsigned (roundWithAccuracy Format.binary64 .positive m e accuracy) := by
  rw [roundWithAccuracy]
  dsimp only
  split
  · exact .zero
  · exact .finite ..

theorem Unsigned.mul (ha : Unsigned a) (hb : Unsigned b) :
    Unsigned (UnpackedFloat.mul Format.binary64 a b) := by
  cases ha with
  | notANumber => exact .notANumber
  | infinity => cases hb <;> constructor
  | zero => cases hb <;> constructor
  | finite m e hm =>
    cases hb with
    | finite m' e' hm' => exact unsigned_roundWithAccuracy ..
    | _ => constructor

theorem Unsigned.div (ha : Unsigned a) (hb : Unsigned b) :
    Unsigned (UnpackedFloat.div Format.binary64 a b) := by
  cases ha with
  | notANumber => exact .notANumber
  | infinity => cases hb <;> constructor
  | zero => cases hb <;> constructor
  | finite m e hm =>
    cases hb with
    | finite m' e' hm' => exact unsigned_roundWithAccuracy ..
    | _ => constructor

theorem Unsigned.not_isMinusZero (h : Unsigned x.toModel.unpack) : ¬ IsMinusZero x := by
  intro hzero
  rw [IsMinusZero] at hzero
  rw [hzero] at h
  cases h

/-- A number that is at least zero has no minus sign unless it is the negative zero. -/
theorem unsigned_of_nonneg (h : 0 ≤ x) (hzero : ¬ IsMinusZero x) : Unsigned x.toModel.unpack := by
  have hle : 0 ≤ place x.toModel.unpack := (le_iff.1 h).2.2
  have hcanonical := canonical x
  unfold IsMinusZero at hzero
  generalize x.toModel.unpack = a at hle hcanonical hzero
  cases a with
  | notANumber => exact .notANumber
  | infinity s =>
    cases s with
    | positive => exact .infinity
    | negative => exact absurd hle (by decide)
  | zero s =>
    cases s with
    | positive => exact .zero
    | negative => exact absurd rfl hzero
  | finite s m e hm =>
    cases s with
    | positive => exact .finite m e hm
    | negative =>
      have hneg : 0 ≤ -steps m e := hle
      have := steps_pos hcanonical
      omega

/-- No difference of a number without a minus sign and a smaller one has a minus sign. -/
theorem unsigned_sub (hx : Unsigned x.toModel.unpack) (h : y ≤ x) : Unsigned (x - y).toModel.unpack := by
  by_cases hd : (x - y).toModel.unpack = .notANumber
  · rw [hd]
    exact .notANumber
  · refine unsigned_of_nonneg (sub_nonneg h (isNaN_eq_false_iff.2 hd)) fun hzero => ?_
    exact hx.not_isMinusZero (isMinusZero_of_sub hzero)

end RhythmChart.Binary64
