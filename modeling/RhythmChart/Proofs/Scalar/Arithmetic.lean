import RhythmChart.Proofs.Scalar.Rounding

/-!
# Arithmetic of binary64 numbers

A finite number is the rational `valueOf`.  Each operation on finite numbers rounds the exact result
(`rounds_add`, `rounds_mul`, `rounds_div`), and on infinite ones it gives an infinite number or none.  So
sums are monotone wherever they are defined (`place_add_le`), and so is any operation on one number that
rounds a monotone function (`place_le_of_monotone`).
-/

namespace RhythmChart.Binary64

open Float.Model Float.Model.UnpackedFloat

/-! ## Values -/

/-- The rational that a finite number is. -/
def valueOf : UnpackedFloat → ℚ
  | .finite s m e _ => signed s (m * 2 ^ e)
  | _ => 0

section InRange

variable {m m' : ℕ} {e e' : ℤ}

theorem InRange.scaledBy (h : InRange m e) : ScaledBy (m * 2 ^ e) e := by
  refine ⟨h.lowest, ?_, h.leading.imp_right fun hlead => ?_⟩
  · rw [show e + 53 = e + (53 : ℕ) from rfl, two_zpow_add]
    exact mul_lt_mul_of_pos_right (by exact_mod_cast h.lt) (two_zpow_pos e)
  · rw [show e + 52 = e + (52 : ℕ) from rfl, two_zpow_add]
    exact mul_le_mul_of_nonneg_right (by exact_mod_cast hlead) (two_zpow_pos e).le

/-- A number of the format is rounded to itself. -/
theorem InRange.stepsOf_eq (h : InRange m e) : stepsOf (m * 2 ^ e) = steps m e := by
  rw [stepsOf, h.scaledBy.exponentOf_eq, significandOf, mul_div_cancel_right₀ _ (two_zpow_pos e).ne',
    ← Int.cast_natCast, roundEven_intCast]
  rfl

/-- Farther from zero means greater. -/
theorem InRange.value_le (h : InRange m e) (h' : InRange m' e') (hle : steps m e ≤ steps m' e') :
    (m * 2 ^ e : ℚ) ≤ m' * 2 ^ e' := by
  by_contra hlt
  have hlt := not_le.1 hlt
  have hsteps := stepsOf_mono hlt.le
  rw [h.stepsOf_eq, h'.stepsOf_eq] at hsteps
  have hexp := h'.scaledBy.le h.scaledBy hlt.le
  have := h.lt
  have := h'.lt
  have := h'.lowest
  have hlead := h.leading
  unfold steps at hle hsteps
  rcases hexp.lt_or_eq with he | rfl
  · -- The significand below would have to carry into the next exponent.
    omega
  · have hm : m = m' := by omega
    rw [hm] at hlt
    exact lt_irrefl _ hlt

end InRange

variable {a a' b b' : UnpackedFloat}

theorem valueOf_neg (a : UnpackedFloat) : valueOf a.neg = -valueOf a := by
  rcases a with _ | _ | _ | ⟨s, m, e, hm⟩
  · exact neg_zero.symm
  · exact neg_zero.symm
  · exact neg_zero.symm
  · cases s
    · exact (neg_neg _).symm
    · rfl

theorem Canonical.neg (h : Canonical a) : Canonical a.neg := by cases a <;> exact h

/-- A number of the format stands where its value rounds to. -/
theorem Canonical.nearest_valueOf (h : Canonical a) (hfin : a.isFinite = true) :
    nearest (valueOf a) = place a := by
  cases a with
  | notANumber => cases hfin
  | infinity s => cases hfin
  | zero s => exact nearest_zero
  | finite s m e hm =>
    have hrange : InRange m e := h
    have hnonneg : (0 : ℚ) ≤ m * 2 ^ e := mul_nonneg m.cast_nonneg (two_zpow_pos e).le
    have hle : steps m e ≤ infinitePlace := (steps_lt_infinity hrange).le
    rw [valueOf, nearest_signed, nearest_of_nonneg hnonneg, hrange.stepsOf_eq, min_eq_left hle]
    rfl

theorem Canonical.rounds (h : Canonical a) (hfin : a.isFinite = true) : Rounds a (valueOf a) := by
  refine ⟨?_, ?_⟩ <;> rw [h.repack_eq]
  · rintro rfl
    cases hfin
  · exact (h.nearest_valueOf hfin).symm

/-- Finite numbers stand in the order of their values. -/
theorem valueOf_le (ha : Canonical a) (hb : Canonical b) (hfa : a.isFinite = true)
    (hfb : b.isFinite = true) (h : place a ≤ place b) : valueOf a ≤ valueOf b := by
  have hnonneg (m : ℕ) (e : ℤ) : (0 : ℚ) ≤ m * 2 ^ e := mul_nonneg m.cast_nonneg (two_zpow_pos e).le
  cases a with
  | notANumber => cases hfa
  | infinity s => cases hfa
  | zero s =>
    cases b with
    | notANumber => cases hfb
    | infinity s' => cases hfb
    | zero s' => exact le_rfl
    | finite s' m' e' hm' =>
      cases s' with
      | positive => exact hnonneg m' e'
      | negative =>
        have hle : 0 ≤ -steps m' e' := h
        have := steps_pos hb
        omega
  | finite s m e hm =>
    cases s with
    | positive =>
      have hpos := steps_pos ha
      cases b with
      | notANumber => cases hfb
      | infinity s' => cases hfb
      | zero s' =>
        have hle : steps m e ≤ 0 := h
        omega
      | finite s' m' e' hm' =>
        cases s' with
        | positive => exact InRange.value_le ha hb h
        | negative =>
          have hle : steps m e ≤ -steps m' e' := h
          have := steps_pos hb
          omega
    | negative =>
      have hneg : valueOf (.finite .negative m e hm) ≤ 0 := neg_nonpos.2 (hnonneg m e)
      cases b with
      | notANumber => cases hfb
      | infinity s' => cases hfb
      | zero s' => exact hneg
      | finite s' m' e' hm' =>
        cases s' with
        | positive => exact hneg.trans (hnonneg m' e')
        | negative => exact neg_le_neg (InRange.value_le hb ha (neg_le_neg_iff.1 h))

/-! ## Finite operands -/

/-- A significand is rounded from any exponent. -/
theorem rounds_round (s : Sign) {m : ℕ} (hm : 0 < m) (e : ℤ) :
    Rounds (UnpackedFloat.round Format.binary64 s m e) (signed s (m * 2 ^ e)) := by
  obtain ⟨k, hk⟩ : ∃ k, (e - Format.binary64.targetExponent (totalExponent m e)).toNat = k := ⟨_, rfl⟩
  have htotal : totalExponent (m * 2 ^ k) (e - k) = totalExponent m e := by
    rw [totalExponent, totalExponent, log2_mul_two_pow hm.ne']
    push_cast
    ring
  have hvalue : ((m * 2 ^ k : ℕ) : ℚ) * 2 ^ (e - k) = m * 2 ^ e := by
    push_cast
    rw [mul_assoc, ← two_zpow_add, sub_add_cancel]
  rw [UnpackedFloat.round, decreaseExponent, hk, Nat.shiftLeft_eq, ← hvalue]
  refine rounds_roundWithAccuracy s (.exact _) ?_
  rw [htotal]
  omega

theorem rounds_normalize (m e : ℤ) :
    Rounds (UnpackedFloat.normalize Format.binary64 m e .positive) (m * 2 ^ e) := by
  unfold UnpackedFloat.normalize
  rcases lt_trichotomy m 0 with h | rfl | h
  · rw [Int.compare_eq_lt.2 h]
    have hcast : (((-m).toNat : ℕ) : ℚ) = -m := by
      have : ((-m).toNat : ℤ) = -m := Int.toNat_of_nonneg (by omega)
      exact_mod_cast congrArg (Int.cast (R := ℚ)) this
    have hround := rounds_round .negative (m := (-m).toNat) (by omega) e
    rwa [hcast, signed, neg_mul, neg_neg] at hround
  · rw [Int.compare_eq_eq.2 rfl, Int.cast_zero, zero_mul]
    exact rounds_zero .positive
  · rw [Int.compare_eq_gt.2 h]
    have hcast : ((m.toNat : ℕ) : ℚ) = m := by
      have : (m.toNat : ℤ) = m := Int.toNat_of_nonneg h.le
      exact_mod_cast congrArg (Int.cast (R := ℚ)) this
    have hround := rounds_round .positive (m := m.toNat) (by omega) e
    rwa [hcast] at hround

theorem signed_decreaseExponent (s : Sign) (m : ℕ) {e t : ℤ} (h : t ≤ e) :
    (s.apply (decreaseExponent m e t).1 : ℚ) * 2 ^ t = signed s (m * 2 ^ e) := by
  obtain ⟨k, rfl⟩ := Int.le.dest h
  have hshift : (decreaseExponent m (t + k) t).1 = m * 2 ^ k := by
    rw [decreaseExponent, add_sub_cancel_left, Int.toNat_natCast, Nat.shiftLeft_eq]
  rw [hshift, two_zpow_add]
  cases s <;> simp only [Sign.apply, signed] <;> push_cast <;> ring

/-- A sum is rounded. -/
theorem rounds_add (ha : Canonical a) (hb : Canonical b) (hfa : a.isFinite = true)
    (hfb : b.isFinite = true) :
    Rounds (UnpackedFloat.add Format.binary64 a b) (valueOf a + valueOf b) := by
  cases a with
  | notANumber => cases hfa
  | infinity s => cases hfa
  | zero s =>
    cases b with
    | notANumber => cases hfb
    | infinity s' => cases hfb
    | zero s' =>
      have hzero : valueOf (.zero s) + valueOf (.zero s') = 0 := add_zero 0
      rw [hzero, UnpackedFloat.add]
      split <;> exact rounds_zero _
    | finite s' m' e' hm' =>
      rw [show valueOf (.zero s) = 0 from rfl, zero_add]
      exact hb.rounds hfb
  | finite s m e hm =>
    cases b with
    | notANumber => cases hfb
    | infinity s' => cases hfb
    | zero s' =>
      rw [show valueOf (.zero s') = 0 from rfl, add_zero]
      exact ha.rounds hfa
    | finite s' m' e' hm' =>
      rw [UnpackedFloat.add, valueOf, valueOf, ← signed_decreaseExponent s m (min_le_left e e'),
        ← signed_decreaseExponent s' m' (min_le_right e e'), ← add_mul, ← Int.cast_add]
      exact rounds_normalize _ _

theorem signed_mul (s s' : Sign) (x y : ℚ) : signed (s * s') (x * y) = signed s x * signed s' y := by
  cases s <;> cases s'
  · exact (neg_mul_neg x y).symm
  · exact (neg_mul x y).symm
  · exact (mul_neg x y).symm
  · rfl

/-- A product is rounded. -/
theorem rounds_mul (ha : Canonical a) (hb : Canonical b) (hfa : a.isFinite = true)
    (hfb : b.isFinite = true) :
    Rounds (UnpackedFloat.mul Format.binary64 a b) (valueOf a * valueOf b) := by
  cases a with
  | notANumber => cases hfa
  | infinity s => cases hfa
  | zero s =>
    rw [show valueOf (.zero s) = 0 from rfl, zero_mul]
    cases b with
    | notANumber => cases hfb
    | infinity s' => cases hfb
    | zero s' => exact rounds_zero _
    | finite s' m' e' hm' => exact rounds_zero _
  | finite s m e hm =>
    cases b with
    | notANumber => cases hfb
    | infinity s' => cases hfb
    | zero s' =>
      rw [show valueOf (.zero s') = 0 from rfl, mul_zero]
      exact rounds_zero _
    | finite s' m' e' hm' =>
      have hvalue : valueOf (.finite s m e hm) * valueOf (.finite s' m' e' hm') =
          signed (s * s') ((m * m' : ℕ) * 2 ^ (e + e')) := by
        rw [valueOf, valueOf, ← signed_mul, zpow_add₀ (by norm_num)]
        congr 1
        push_cast
        ring
      rw [hvalue]
      refine rounds_roundWithAccuracy (s * s') (.exact _) ?_
      rw [targetExponent_eq]
      -- Either factor has its leading bit, and then so has the product, or both are subnormal.
      rcases ha.leading with rfl | hlead
      · rcases hb.leading with rfl | hlead'
        · omega
        · have hlog : 52 ≤ (m * m').log2 := (Nat.le_log2 (Nat.mul_pos hm hm').ne').2
            (hlead'.trans (Nat.le_mul_of_pos_left m' hm))
          omega
      · have hlog : 52 ≤ (m * m').log2 := (Nat.le_log2 (Nat.mul_pos hm hm').ne').2
          (hlead.trans (Nat.le_mul_of_pos_right m hm'))
        omega

/-- The remainder of a division tells how far the quotient is from its integer part. -/
theorem represents_quotient (m : ℕ) {d : ℕ} (hd : 0 < d) :
    Represents (.ofMantissaAndAccuracy (m / d) (accuracyOfFraction (m % d) d)) (m / d : ℚ) := by
  have hd' : (0 : ℚ) < d := Nat.cast_pos.2 hd
  have hsplit : (m / d : ℚ) = (m / d : ℕ) + ((m % d : ℕ) : ℚ) / d := by
    have hm : (m : ℚ) = d * (m / d : ℕ) + (m % d : ℕ) := by exact_mod_cast (Nat.div_add_mod m d).symm
    rw [hm]
    field_simp
  rw [hsplit]
  have hlt : ((m % d : ℕ) : ℚ) / d < 1 := by
    rw [div_lt_one hd']
    exact_mod_cast Nat.mod_lt m hd
  unfold accuracyOfFraction
  split
  · next hzero =>
    rw [hzero, Nat.cast_zero, zero_div, add_zero]
    rfl
  · next hne =>
    have hpos : 0 < ((m % d : ℕ) : ℚ) / d :=
      div_pos (Nat.cast_pos.2 (Nat.pos_of_ne_zero hne)) hd'
    rcases lt_trichotomy (2 * (m % d)) d with h | h | h
    · rw [Nat.compare_eq_lt.2 h]
      have hhalf : ((m % d : ℕ) : ℚ) / d < 1 / 2 := by
        rw [div_lt_div_iff₀ hd' (by norm_num)]
        exact_mod_cast (by omega : m % d * 2 < 1 * d)
      exact ⟨lt_add_of_pos_right _ hpos, add_lt_add_right hhalf _⟩
    · rw [Nat.compare_eq_eq.2 h]
      have hhalf : ((m % d : ℕ) : ℚ) / d = 1 / 2 := by
        rw [div_eq_div_iff hd'.ne' (by norm_num)]
        exact_mod_cast (by omega : m % d * 2 = 1 * d)
      exact congrArg _ hhalf
    · rw [Nat.compare_eq_gt.2 h]
      have hhalf : 1 / 2 < ((m % d : ℕ) : ℚ) / d := by
        rw [div_lt_div_iff₀ (by norm_num) hd']
        exact_mod_cast (by omega : 1 * d < m % d * 2)
      exact ⟨add_lt_add_right hhalf _, add_lt_add_right hlt _⟩

theorem signed_div (s s' : Sign) (x y : ℚ) : signed (s / s') (x / y) = signed s x / signed s' y := by
  cases s <;> cases s'
  · exact (neg_div_neg_eq x y).symm
  · exact (neg_div y x).symm
  · exact (div_neg x).symm
  · rfl

section Quotient

variable {m m' : ℕ} {e e' : ℤ}

/-- The exponent at which a quotient is computed. -/
def quotientExponent (m : ℕ) (e : ℤ) (m' : ℕ) (e' : ℤ) : ℤ :=
  min (e - e') (Format.binary64.targetExponent (totalExponent m e - totalExponent m' e'))

theorem divCore_eq (m : ℕ) (e : ℤ) (m' : ℕ) (e' : ℤ) :
    ∃ k : ℕ, e - e' = quotientExponent m e m' e' + k ∧
      divCore Format.binary64 m e m' e' = (m * 2 ^ k / m', quotientExponent m e m' e',
        accuracyOfFraction (m * 2 ^ k % m') m') := by
  have hle : quotientExponent m e m' e' ≤ e - e' := min_le_left _ _
  obtain ⟨k, hk⟩ := Int.le.dest hle
  refine ⟨k, hk.symm, ?_⟩
  have hshift : (e - e' - quotientExponent m e m' e').toNat = k := by omega
  rw [← Nat.shiftLeft_eq, ← hshift]
  rfl

/-- The quotient has bits enough. -/
theorem quotientExponent_le (hm : 0 < m) (hm' : 0 < m') {k : ℕ}
    (hk : e - e' = quotientExponent m e m' e' + k) :
    quotientExponent m e m' e' ≤ Format.binary64.targetExponent
      (totalExponent (m * 2 ^ k / m') (quotientExponent m e m' e')) := by
  have htarget : quotientExponent m e m' e' ≤
      max (totalExponent m e - totalExponent m' e' - 53) (-1074) := min_le_right _ _
  rw [targetExponent_eq]
  rcases le_or_gt (quotientExponent m e m' e') (-1074) with hlow | hlow
  · exact hlow.trans (le_max_right _ _)
  have hlog : m'.log2 + 53 ≤ (m * 2 ^ k).log2 := by
    rw [log2_mul_two_pow hm.ne']
    unfold totalExponent at htarget
    omega
  have hle : 2 ^ 52 ≤ m * 2 ^ k / m' := by
    rw [Nat.le_div_iff_mul_le hm']
    calc 2 ^ 52 * m' ≤ 2 ^ 52 * 2 ^ (m'.log2 + 1) := Nat.mul_le_mul_left _ Nat.lt_log2_self.le
      _ = 2 ^ (m'.log2 + 53) := by rw [← pow_add]; congr 1; omega
      _ ≤ 2 ^ (m * 2 ^ k).log2 := Nat.pow_le_pow_right (by norm_num) hlog
      _ ≤ m * 2 ^ k := Nat.log2_self_le (Nat.mul_pos hm (Nat.two_pow_pos k)).ne'
  have : 52 ≤ (m * 2 ^ k / m').log2 :=
    (Nat.le_log2 (Nat.lt_of_lt_of_le (by norm_num) hle).ne').2 hle
  omega

/-- A quotient is rounded. -/
theorem rounds_div (ha : Canonical a) (hfa : a.isFinite = true) (s' : Sign) (hm' : 0 < m') :
    Rounds (UnpackedFloat.div Format.binary64 a (.finite s' m' e' hm'))
      (valueOf a / valueOf (.finite s' m' e' hm')) := by
  cases a with
  | notANumber => cases hfa
  | infinity s => cases hfa
  | zero s =>
    rw [show valueOf (.zero s) = 0 from rfl, zero_div]
    exact rounds_zero _
  | finite s m e hm =>
    obtain ⟨k, hk, hdiv⟩ := divCore_eq m e m' e'
    have hpos : (0 : ℚ) < m' := Nat.cast_pos.2 hm'
    have hvalue : valueOf (.finite s m e hm) / valueOf (.finite s' m' e' hm') =
        signed (s / s') ((m * 2 ^ k : ℕ) / m' * 2 ^ quotientExponent m e m' e') := by
      have hpow : (2 : ℚ) ^ e = 2 ^ k * 2 ^ quotientExponent m e m' e' * 2 ^ e' := by
        rw [← two_zpow_add, ← zpow_add₀ (by norm_num)]
        congr 1
        omega
      have hne := (two_zpow_pos e').ne'
      rw [valueOf, valueOf, ← signed_div, hpow]
      congr 1
      push_cast
      field_simp
    rw [hvalue, UnpackedFloat.div, hdiv]
    exact rounds_roundWithAccuracy _ (represents_quotient _ hm') (quotientExponent_le hm hm' hk)

end Quotient

/-! ## Infinite operands -/

theorem canonical_repack (a : UnpackedFloat) : Canonical (repack a) := canonical_unpack _

theorem eq_infinity_or (a : UnpackedFloat) : (∃ s, a = .infinity s) ∨ ∀ s, a ≠ .infinity s := by
  rw [← not_exists]
  exact Classical.em _

theorem neg_infinitePlace_le (ha : Canonical a) : -infinitePlace ≤ place a := by
  rcases eq_infinity_or a with ⟨s, rfl⟩ | hinf
  · cases s <;> decide
  · exact (place_between ha hinf).1.le

theorem place_le_infinitePlace (ha : Canonical a) : place a ≤ infinitePlace := by
  rcases eq_infinity_or a with ⟨s, rfl⟩ | hinf
  · cases s <;> decide
  · exact (place_between ha hinf).2.le

theorem neg_infinitePlace_lt (ha : Canonical a) (hne : a ≠ .infinity .negative) :
    -infinitePlace < place a := by
  rcases eq_infinity_or a with ⟨s, rfl⟩ | hinf
  · cases s
    · exact absurd rfl hne
    · decide
  · exact (place_between ha hinf).1

theorem place_lt_infinitePlace (ha : Canonical a) (hne : a ≠ .infinity .positive) :
    place a < infinitePlace := by
  rcases eq_infinity_or a with ⟨s, rfl⟩ | hinf
  · cases s
    · decide
    · exact absurd rfl hne
  · exact (place_between ha hinf).2

/-- A number between the infinities is finite. -/
theorem isFinite_of_between (hna : a ≠ .notANumber) (hlow : -infinitePlace < place a)
    (hhigh : place a < infinitePlace) : a.isFinite = true := by
  cases a with
  | notANumber => exact absurd rfl hna
  | infinity s =>
    cases s
    · exact absurd hlow (lt_irrefl _)
    · exact absurd hhigh (lt_irrefl _)
  | zero s => rfl
  | finite s m e hm => rfl

/-- An operation that rounds a monotone function of finite operands, and that keeps infinities, is
monotone where it is defined. -/
theorem place_le_of_monotone {f : UnpackedFloat → UnpackedFloat} {g : ℚ → ℚ} (hg : Monotone g)
    (hfin : ∀ a, Canonical a → a.isFinite = true → Rounds (f a) (g (valueOf a)))
    (hinf : ∀ s, repack (f (.infinity s)) ≠ .notANumber → repack (f (.infinity s)) = .infinity s)
    (ha : Canonical a) (ha' : Canonical a') (hna : a ≠ .notANumber) (hna' : a' ≠ .notANumber)
    (h : place a ≤ place a') (hd : repack (f a) ≠ .notANumber) (hd' : repack (f a') ≠ .notANumber) :
    place (repack (f a)) ≤ place (repack (f a')) := by
  by_cases hbottom : a = .infinity .negative
  · subst hbottom
    rw [hinf _ hd]
    exact neg_infinitePlace_le (canonical_repack _)
  by_cases htop : a' = .infinity .positive
  · subst htop
    rw [hinf _ hd']
    exact place_le_infinitePlace (canonical_repack _)
  have hlow := neg_infinitePlace_lt ha hbottom
  have hhigh := place_lt_infinitePlace ha' htop
  have hfa := isFinite_of_between hna hlow (h.trans_lt hhigh)
  have hfa' := isFinite_of_between hna' (hlow.trans_le h) hhigh
  rw [(hfin a ha hfa).place_eq, (hfin a' ha' hfa').place_eq]
  exact nearest_mono (hg (valueOf_le ha ha' hfa hfa' h))

theorem repack_add_infinity {s : Sign} (h : a = .infinity s ∨ b = .infinity s)
    (hd : repack (UnpackedFloat.add Format.binary64 a b) ≠ .notANumber) :
    repack (UnpackedFloat.add Format.binary64 a b) = .infinity s := by
  have hsame (s s' : Sign) (hd : repack (UnpackedFloat.add Format.binary64 (.infinity s)
      (.infinity s')) ≠ .notANumber) : s = s' := by
    cases s <;> cases s'
    · rfl
    · exact absurd rfl hd
    · exact absurd rfl hd
    · rfl
  rcases h with rfl | rfl
  · cases b with
    | notANumber => exact absurd repack_notANumber hd
    | infinity s' =>
      obtain rfl := hsame s s' hd
      cases s <;> rfl
    | zero s' => exact repack_infinity s
    | finite => exact repack_infinity s
  · cases a with
    | notANumber => exact absurd repack_notANumber hd
    | infinity s' =>
      obtain rfl := hsame s' s hd
      cases s' <;> rfl
    | zero s' => exact repack_infinity s
    | finite => exact repack_infinity s

/-- What an undefined number makes undefined is defined for defined numbers only. -/
theorem ne_of_repack {f : UnpackedFloat → UnpackedFloat → UnpackedFloat}
    (hleft : ∀ b, f .notANumber b = .notANumber) (hright : ∀ a, f a .notANumber = .notANumber)
    (hd : repack (f a b) ≠ .notANumber) : a ≠ .notANumber ∧ b ≠ .notANumber := by
  constructor
  · rintro rfl
    rw [hleft] at hd
    exact hd repack_notANumber
  · rintro rfl
    rw [hright] at hd
    exact hd repack_notANumber

theorem ne_of_add (hd : repack (UnpackedFloat.add Format.binary64 a b) ≠ .notANumber) :
    a ≠ .notANumber ∧ b ≠ .notANumber :=
  ne_of_repack (fun _ => rfl) (fun a => by cases a <;> rfl) hd

theorem ne_of_mul (hd : repack (UnpackedFloat.mul Format.binary64 a b) ≠ .notANumber) :
    a ≠ .notANumber ∧ b ≠ .notANumber :=
  ne_of_repack (fun _ => rfl) (fun a => by cases a <;> rfl) hd

theorem ne_of_div (hd : repack (UnpackedFloat.div Format.binary64 a b) ≠ .notANumber) :
    a ≠ .notANumber ∧ b ≠ .notANumber :=
  ne_of_repack (fun _ => rfl) (fun a => by cases a <;> rfl) hd

/-- Sums are monotone where they are defined. -/
theorem place_add_le (ha : Canonical a) (ha' : Canonical a') (hb : Canonical b) (hb' : Canonical b')
    (hle : place a ≤ place a') (hle' : place b ≤ place b')
    (hd : repack (UnpackedFloat.add Format.binary64 a b) ≠ .notANumber)
    (hd' : repack (UnpackedFloat.add Format.binary64 a' b') ≠ .notANumber) :
    place (repack (UnpackedFloat.add Format.binary64 a b)) ≤
      place (repack (UnpackedFloat.add Format.binary64 a' b')) := by
  by_cases hbottom : a = .infinity .negative ∨ b = .infinity .negative
  · rw [repack_add_infinity hbottom hd]
    exact neg_infinitePlace_le (canonical_repack _)
  by_cases htop : a' = .infinity .positive ∨ b' = .infinity .positive
  · rw [repack_add_infinity htop hd']
    exact place_le_infinitePlace (canonical_repack _)
  obtain ⟨hna, hnb⟩ := ne_of_add hd
  obtain ⟨hna', hnb'⟩ := ne_of_add hd'
  rw [not_or] at hbottom htop
  have hlow := neg_infinitePlace_lt ha hbottom.1
  have hlow' := neg_infinitePlace_lt hb hbottom.2
  have hhigh := place_lt_infinitePlace ha' htop.1
  have hhigh' := place_lt_infinitePlace hb' htop.2
  have hfa := isFinite_of_between hna hlow (hle.trans_lt hhigh)
  have hfa' := isFinite_of_between hna' (hlow.trans_le hle) hhigh
  have hfb := isFinite_of_between hnb hlow' (hle'.trans_lt hhigh')
  have hfb' := isFinite_of_between hnb' (hlow'.trans_le hle') hhigh'
  rw [(rounds_add ha hb hfa hfb).place_eq, (rounds_add ha' hb' hfa' hfb').place_eq]
  exact nearest_mono (add_le_add (valueOf_le ha ha' hfa hfa' hle) (valueOf_le hb hb' hfb hfb' hle'))

theorem sub_eq_add_neg (a b : UnpackedFloat) :
    UnpackedFloat.sub Format.binary64 a b = UnpackedFloat.add Format.binary64 a b.neg := by
  rcases a with _ | _ | _ | ⟨s, m, e, hm⟩ <;> rcases b with _ | _ | _ | ⟨s', m', e', hm'⟩ <;> try rfl
  have happly (n : ℤ) : (-s').apply n = -s'.apply n := by
    cases s'
    · exact (Int.neg_neg n).symm
    · rfl
  simp only [UnpackedFloat.sub, UnpackedFloat.neg, UnpackedFloat.add, happly]
  rw [Int.sub_eq_add_neg]

/-- Products by a finite number that is not negative keep infinities. -/
theorem repack_mul_infinity {r : UnpackedFloat} (hr : Canonical r) (hf : r.isFinite = true)
    (hle : 0 ≤ place r) (s : Sign)
    (hd : repack (UnpackedFloat.mul Format.binary64 (.infinity s) r) ≠ .notANumber) :
    repack (UnpackedFloat.mul Format.binary64 (.infinity s) r) = .infinity s := by
  cases r with
  | notANumber => cases hf
  | infinity s' => cases hf
  | zero s' => exact absurd repack_notANumber hd
  | finite s' m' e' hm' =>
    cases s' with
    | negative =>
      have hneg : 0 ≤ -steps m' e' := hle
      have := steps_pos hr
      omega
    | positive => cases s <;> exact repack_infinity _

/-- Quotients by a positive finite number keep infinities. -/
theorem repack_div_infinity {m : ℕ} {e : ℤ} (hm : 0 < m) (s : Sign) :
    repack (UnpackedFloat.div Format.binary64 (.infinity s) (.finite .positive m e hm)) =
      .infinity s := by
  cases s <;> exact repack_infinity _

end RhythmChart.Binary64
