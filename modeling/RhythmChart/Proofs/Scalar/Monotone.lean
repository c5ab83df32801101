import RhythmChart.Proofs.Scalar.Arithmetic

/-!
# Monotone arithmetic of binary64 numbers

The laws of order that rounding keeps, as long as no result is undefined: sums, differences, products by a
finite number that is not negative and quotients by a finite positive one are monotone
(`add_le_add`, `sub_le_sub_right`, `mul_le_mul_right`, `div_le_div_right`), and zero behaves as it should
(`le_add_of_nonneg`, `sub_nonneg`, `mul_nonneg`, `div_nonneg`).  `IsNearest x q` says that `x` is the
number to which the rational `q` rounds.
-/

namespace RhythmChart.Binary64

open Float.Model Float.Model.UnpackedFloat

variable {x x' y y' z r : Float}

/-! ## Comparison -/

theorem le_iff : x ≤ y ↔ x.isNaN = false ∧ y.isNaN = false ∧ position x ≤ position y := by
  have hle : x ≤ y ↔ x.toModel.unpack.le y.toModel.unpack = true := decide_eq_true_iff
  rw [hle, isNaN_eq_false_iff, isNaN_eq_false_iff, UnpackedFloat.le]
  by_cases hx : x.toModel.unpack = .notANumber
  · rw [hx]
    exact iff_of_false (by simp [UnpackedFloat.compare]) fun h => h.1 rfl
  by_cases hy : y.toModel.unpack = .notANumber
  · rw [hy]
    exact iff_of_false (by cases x.toModel.unpack <;> simp [UnpackedFloat.compare]) fun h => h.2.1 rfl
  rw [compare_eq (canonical x) (canonical y) hx hy, Option.any_some, Int.isLE_compare]
  exact ⟨fun h => ⟨hx, hy, h⟩, fun h => h.2.2⟩

theorem beq_iff : (x == y) = true ↔
    x.isNaN = false ∧ y.isNaN = false ∧ position x = position y := by
  have hbeq : (x == y) = true ↔ x.toModel.unpack.compare y.toModel.unpack = some .eq :=
    Iff.rfl.trans (beq_iff_eq (a := x.toModel.unpack.compare y.toModel.unpack))
  rw [hbeq, isNaN_eq_false_iff, isNaN_eq_false_iff]
  by_cases hx : x.toModel.unpack = .notANumber
  · rw [hx]
    exact iff_of_false (by simp [UnpackedFloat.compare]) fun h => h.1 rfl
  by_cases hy : y.toModel.unpack = .notANumber
  · rw [hy]
    exact iff_of_false (by cases x.toModel.unpack <;> simp [UnpackedFloat.compare]) fun h => h.2.1 rfl
  rw [compare_eq (canonical x) (canonical y) hx hy, Option.some.injEq, Int.compare_eq_eq]
  exact ⟨fun h => ⟨hx, hy, h⟩, fun h => h.2.2⟩

theorem beq_iff_le : (x == y) = true ↔ x ≤ y ∧ y ≤ x := by
  rw [beq_iff, le_iff, le_iff]
  constructor
  · rintro ⟨hx, hy, heq⟩
    exact ⟨⟨hx, hy, heq.le⟩, hy, hx, heq.ge⟩
  · rintro ⟨⟨hx, hy, hle⟩, -, -, hge⟩
    exact ⟨hx, hy, le_antisymm hle hge⟩

theorem beq_symm (h : (x == y) = true) : (y == x) = true := beq_iff_le.2 (beq_iff_le.1 h).symm

theorem beq_trans (h : (x == y) = true) (h' : (y == z) = true) : (x == z) = true := by
  obtain ⟨hx, -, hxy⟩ := beq_iff.1 h
  obtain ⟨-, hz, hyz⟩ := beq_iff.1 h'
  exact beq_iff.2 ⟨hx, hz, hxy.trans hyz⟩

theorem le_refl_iff : x ≤ x ↔ x.isNaN = false := by
  rw [le_iff]
  exact ⟨fun h => h.1, fun h => ⟨h, h, le_rfl⟩⟩

theorem le_trans (h : x ≤ y) (h' : y ≤ z) : x ≤ z := by
  obtain ⟨hx, -, hle⟩ := le_iff.1 h
  obtain ⟨-, hz, hle'⟩ := le_iff.1 h'
  exact le_iff.2 ⟨hx, hz, hle.trans hle'⟩

theorem le_of_lt (h : x < y) : x ≤ y := by
  obtain ⟨hx, hy, hlt⟩ := lt_iff.1 h
  exact le_iff.2 ⟨hx, hy, hlt.le⟩

theorem lt_of_le_of_lt (h : x ≤ y) (h' : y < z) : x < z := by
  obtain ⟨hx, -, hle⟩ := le_iff.1 h
  obtain ⟨-, hz, hlt⟩ := lt_iff.1 h'
  exact lt_iff.2 ⟨hx, hz, hle.trans_lt hlt⟩

theorem lt_of_lt_of_le (h : x < y) (h' : y ≤ z) : x < z := by
  obtain ⟨hx, -, hlt⟩ := lt_iff.1 h
  obtain ⟨-, hz, hle⟩ := le_iff.1 h'
  exact lt_iff.2 ⟨hx, hz, hlt.trans_le hle⟩

theorem le_of_not_lt (hx : x.isNaN = false) (hy : y.isNaN = false) (h : ¬ y < x) : x ≤ y := by
  rw [lt_iff, not_and, not_and, not_lt] at h
  exact le_iff.2 ⟨hx, hy, h hy hx⟩

theorem not_lt_of_le (h : x ≤ y) : ¬ y < x :=
  fun hlt => (le_iff.1 h).2.2.not_gt (lt_iff.1 hlt).2.2

theorem not_lt_iff (hx : x.isNaN = false) (hy : y.isNaN = false) : ¬ x < y ↔ y ≤ x :=
  ⟨le_of_not_lt hy hx, not_lt_of_le⟩

theorem isNaN_of_isFinite (h : x.isFinite = true) : x.isNaN = false := by
  have hfin : x.toModel.unpack.isFinite = true := h
  rw [isNaN_eq_false_iff]
  intro hnan
  rw [hnan] at hfin
  cases hfin

/-! ## The nearest number -/

/-- The rational that a finite number is. -/
def value (x : Float) : ℚ := valueOf x.toModel.unpack

/-- The number to which a rational rounds. -/
structure IsNearest (x : Float) (q : ℚ) : Prop where
  defined : x.isNaN = false
  position_eq : position x = nearest q

theorem Rounds.isNearest {a : UnpackedFloat} {q : ℚ} (h : Rounds a q)
    (hx : x.toModel.unpack = repack a) : IsNearest x q := by
  refine ⟨?_, ?_⟩
  · rw [isNaN_eq_false_iff, hx]
    exact h.defined
  · rw [position, hx]
    exact h.place_eq

theorem isNearest_value (h : x.isFinite = true) : IsNearest x (value x) :=
  ⟨isNaN_of_isFinite h, ((canonical x).nearest_valueOf h).symm⟩

theorem isNearest_zero : IsNearest 0 0 := ⟨rfl, nearest_zero.symm⟩

theorem IsNearest.le {p q : ℚ} (hx : IsNearest x p) (hy : IsNearest y q) (h : p ≤ q) : x ≤ y := by
  refine le_iff.2 ⟨hx.defined, hy.defined, ?_⟩
  rw [hx.position_eq, hy.position_eq]
  exact nearest_mono h

theorem value_le (hx : x.isFinite = true) (hy : y.isFinite = true) (h : x ≤ y) :
    value x ≤ value y :=
  valueOf_le (canonical x) (canonical y) hx hy (le_iff.1 h).2.2

theorem value_nonneg (hx : x.isFinite = true) (h : 0 ≤ x) : 0 ≤ value x := value_le rfl hx h

theorem unpack_add (x y : Float) : (x + y).toModel.unpack =
    repack (UnpackedFloat.add Format.binary64 x.toModel.unpack y.toModel.unpack) := rfl

theorem unpack_mul (x y : Float) : (x * y).toModel.unpack =
    repack (UnpackedFloat.mul Format.binary64 x.toModel.unpack y.toModel.unpack) := rfl

theorem unpack_div (x y : Float) : (x / y).toModel.unpack =
    repack (UnpackedFloat.div Format.binary64 x.toModel.unpack y.toModel.unpack) := rfl

theorem unpack_sub (x y : Float) : (x - y).toModel.unpack =
    repack (UnpackedFloat.add Format.binary64 x.toModel.unpack y.toModel.unpack.neg) := by
  rw [← sub_eq_add_neg]
  rfl

theorem isNearest_add (hx : x.isFinite = true) (hy : y.isFinite = true) :
    IsNearest (x + y) (value x + value y) :=
  (rounds_add (canonical x) (canonical y) hx hy).isNearest (unpack_add x y)

theorem isNearest_mul (hx : x.isFinite = true) (hy : y.isFinite = true) :
    IsNearest (x * y) (value x * value y) :=
  (rounds_mul (canonical x) (canonical y) hx hy).isNearest (unpack_mul x y)

theorem isFinite_unpack_neg (a : UnpackedFloat) : a.neg.isFinite = a.isFinite := by cases a <;> rfl

theorem isFinite_neg (h : x.isFinite = true) : (-x).isFinite = true := by
  have hneg : (-x).toModel.unpack = x.toModel.unpack.neg := (canonical x).neg.repack_eq
  change (-x).toModel.unpack.isFinite = true
  rw [hneg, isFinite_unpack_neg]
  exact h

theorem isNearest_sub (hx : x.isFinite = true) (hy : y.isFinite = true) :
    IsNearest (x - y) (value x - value y) := by
  have hfin : y.toModel.unpack.neg.isFinite = true := (isFinite_unpack_neg _).trans hy
  rw [Rat.sub_eq_add_neg, value, value, ← valueOf_neg]
  exact (rounds_add (canonical x) (canonical y).neg hx hfin).isNearest (unpack_sub x y)

/-- A finite number above zero has a positive sign. -/
theorem exists_unpack_eq (hr : r.isFinite = true) (hpos : 0 < r) :
    ∃ m e, ∃ hm : 0 < m, r.toModel.unpack = .finite .positive m e hm := by
  have hfin : r.toModel.unpack.isFinite = true := hr
  have hlt : 0 < place r.toModel.unpack := (lt_iff.1 hpos).2.2
  have hcanonical := canonical r
  cases h : r.toModel.unpack with
  | notANumber =>
    rw [h] at hfin
    cases hfin
  | infinity s =>
    rw [h] at hfin
    cases hfin
  | zero s =>
    rw [h] at hlt
    exact absurd hlt (lt_irrefl _)
  | finite s m e hm =>
    rw [h] at hlt hcanonical
    cases s with
    | positive => exact ⟨m, e, hm, rfl⟩
    | negative =>
      have hneg : 0 < -steps m e := hlt
      have := steps_pos hcanonical
      omega

theorem isNearest_div (hx : x.isFinite = true) (hr : r.isFinite = true) (hpos : 0 < r) :
    IsNearest (x / r) (value x / value r) := by
  obtain ⟨m, e, hm, hunpack⟩ := exists_unpack_eq hr hpos
  have hdiv := unpack_div x r
  rw [value, value, hunpack]
  rw [hunpack] at hdiv
  exact (rounds_div (canonical x) hx .positive hm).isNearest hdiv

/-! ## Sums -/

theorem isNaN_of_add (h : (x + y).isNaN = false) : x.isNaN = false ∧ y.isNaN = false := by
  rw [isNaN_eq_false_iff, unpack_add] at h
  rw [isNaN_eq_false_iff, isNaN_eq_false_iff]
  exact ne_of_add h

theorem add_le_add (h : x ≤ x') (h' : y ≤ y') (hd : (x + y).isNaN = false)
    (hd' : (x' + y').isNaN = false) : x + y ≤ x' + y' := by
  refine le_iff.2 ⟨hd, hd', ?_⟩
  rw [isNaN_eq_false_iff, unpack_add] at hd hd'
  rw [position, position, unpack_add, unpack_add]
  exact place_add_le (canonical x) (canonical x') (canonical y) (canonical y')
    (le_iff.1 h).2.2 (le_iff.1 h').2.2 hd hd'

/-- Adding zero changes at most the sign of a zero. -/
theorem unpack_add_zero (x : Float) : (x + 0).toModel.unpack = x.toModel.unpack ∨
    ∃ s, x.toModel.unpack = .zero s ∧ (x + 0).toModel.unpack = .zero .positive := by
  have hadd : (x + 0).toModel.unpack =
      repack (UnpackedFloat.add Format.binary64 x.toModel.unpack (.zero .positive)) := unpack_add x 0
  have hcanonical := canonical x
  rw [hadd]
  cases h : x.toModel.unpack with
  | notANumber => exact .inl repack_notANumber
  | infinity s => exact .inl (repack_infinity s)
  | zero s => exact .inr ⟨s, rfl, by cases s <;> rfl⟩
  | finite s m e hm =>
    rw [h] at hcanonical
    exact .inl hcanonical.repack_eq

theorem position_add_zero (x : Float) : position (x + 0) = position x := by
  rw [position, position]
  rcases unpack_add_zero x with heq | ⟨s, hx, hadd⟩
  · rw [heq]
  · rw [hx, hadd]
    rfl

theorem isNaN_add_zero (h : x.isNaN = false) : (x + 0).isNaN = false := by
  rw [isNaN_eq_false_iff] at h ⊢
  rcases unpack_add_zero x with heq | ⟨s, hx, hadd⟩
  · rwa [heq]
  · rw [hadd]
    exact UnpackedFloat.noConfusion

/-- Adding zero changes no place. -/
theorem le_add_zero (h : x.isNaN = false) : x ≤ x + 0 :=
  le_iff.2 ⟨h, isNaN_add_zero h, (position_add_zero x).ge⟩

theorem add_zero_le (h : x.isNaN = false) : x + 0 ≤ x :=
  le_iff.2 ⟨isNaN_add_zero h, h, (position_add_zero x).le⟩

theorem le_add_of_nonneg (h : 0 ≤ y) (hd : (x + y).isNaN = false) : x ≤ x + y := by
  obtain ⟨hx, -⟩ := isNaN_of_add hd
  exact le_trans (le_add_zero hx) (add_le_add (le_refl_iff.2 hx) h (isNaN_add_zero hx) hd)

theorem add_le_of_nonpos (h : y ≤ 0) (hd : (x + y).isNaN = false) : x + y ≤ x := by
  obtain ⟨hx, -⟩ := isNaN_of_add hd
  exact le_trans (add_le_add (le_refl_iff.2 hx) h hd (isNaN_add_zero hx)) (add_zero_le hx)

/-- A number that is at least zero is finite or infinite above. -/
theorem isFinite_or_of_nonneg (h : 0 ≤ x) :
    x.isFinite = true ∨ x.toModel.unpack = .infinity .positive := by
  obtain ⟨-, hx, hle⟩ := le_iff.1 h
  rw [isNaN_eq_false_iff] at hx
  refine or_iff_not_imp_right.2 fun htop => ?_
  exact isFinite_of_between hx (Int.lt_of_lt_of_le (by decide) hle) (place_lt_infinitePlace (canonical x) htop)

/-- A number that is at least zero is finite if a greater one is. -/
theorem isFinite_of_le (hx : 0 ≤ x) (h : x ≤ y) (hy : y.isFinite = true) : x.isFinite = true := by
  rcases isFinite_or_of_nonneg hx with hfin | htop
  · exact hfin
  · have hfy : y.toModel.unpack.isFinite = true := hy
    have hne : y.toModel.unpack ≠ .infinity .positive := by
      intro heq
      rw [heq] at hfy
      cases hfy
    have hle : place x.toModel.unpack ≤ place y.toModel.unpack := (le_iff.1 h).2.2
    rw [htop] at hle
    exact absurd hle (not_le.2 (place_lt_infinitePlace (canonical y) hne))

/-- A sum of numbers that are at least zero is defined. -/
theorem isNaN_add_of_nonneg (hx : 0 ≤ x) (hy : 0 ≤ y) : (x + y).isNaN = false := by
  have hinf {a : UnpackedFloat} (ha : a.isFinite = true ∨ a = .infinity .positive) :
      UnpackedFloat.add Format.binary64 (.infinity .positive) a = .infinity .positive ∧
        UnpackedFloat.add Format.binary64 a (.infinity .positive) = .infinity .positive := by
    rcases ha with hfin | rfl
    · cases a with
      | notANumber => cases hfin
      | infinity s => cases hfin
      | zero s => exact ⟨rfl, rfl⟩
      | finite s m e hm => exact ⟨rfl, rfl⟩
    · exact ⟨rfl, rfl⟩
  rcases isFinite_or_of_nonneg hx with hfx | htop
  · rcases isFinite_or_of_nonneg hy with hfy | htop'
    · exact (isNearest_add hfx hfy).defined
    · rw [isNaN_eq_false_iff, unpack_add, htop', (hinf (.inl hfx)).2, repack_infinity]
      exact UnpackedFloat.noConfusion
  · rw [isNaN_eq_false_iff, unpack_add, htop, (hinf (isFinite_or_of_nonneg hy)).1, repack_infinity]
    exact UnpackedFloat.noConfusion

theorem add_nonneg (hx : 0 ≤ x) (hy : 0 ≤ y) : 0 ≤ x + y :=
  le_trans hx (le_add_of_nonneg hy (isNaN_add_of_nonneg hx hy))

/-! ## Differences -/

theorem isNaN_of_sub (h : (x - y).isNaN = false) : x.isNaN = false ∧ y.isNaN = false := by
  rw [isNaN_eq_false_iff, unpack_sub] at h
  obtain ⟨hx, hy⟩ := ne_of_add h
  rw [isNaN_eq_false_iff, isNaN_eq_false_iff]
  refine ⟨hx, fun hnan => hy ?_⟩
  rw [hnan]
  rfl

theorem sub_le_sub_right (h : x ≤ y) (hd : (x - z).isNaN = false) (hd' : (y - z).isNaN = false) :
    x - z ≤ y - z := by
  refine le_iff.2 ⟨hd, hd', ?_⟩
  rw [isNaN_eq_false_iff, unpack_sub] at hd hd'
  rw [position, position, unpack_sub, unpack_sub]
  exact place_add_le (canonical x) (canonical y) (canonical z).neg (canonical z).neg
    (le_iff.1 h).2.2 le_rfl hd hd'

theorem sub_nonneg (h : x ≤ y) (hd : (y - x).isNaN = false) : 0 ≤ y - x := by
  refine le_iff.2 ⟨rfl, hd, ?_⟩
  obtain ⟨hx, hy, hle⟩ := le_iff.1 h
  rw [isNaN_eq_false_iff] at hx hy
  rw [isNaN_eq_false_iff, unpack_sub] at hd
  change 0 ≤ place (y - x).toModel.unpack
  rw [unpack_sub]
  by_cases htop : y.toModel.unpack = .infinity .positive ∨ x.toModel.unpack.neg = .infinity .positive
  · rw [repack_add_infinity htop hd]
    decide
  rw [not_or] at htop
  have hbottom : x.toModel.unpack ≠ .infinity .negative := by
    intro heq
    rw [heq] at htop
    exact htop.2 rfl
  have hlow := neg_infinitePlace_lt (canonical x) hbottom
  have hhigh := place_lt_infinitePlace (canonical y) htop.1
  have hfx := isFinite_of_between hx hlow (hle.trans_lt hhigh)
  have hfy := isFinite_of_between hy (hlow.trans_le hle) hhigh
  have hfneg : x.toModel.unpack.neg.isFinite = true := (isFinite_unpack_neg _).trans hfx
  rw [(rounds_add (canonical y) (canonical x).neg hfy hfneg).place_eq, valueOf_neg]
  refine nearest_nonneg ?_
  have := valueOf_le (canonical x) (canonical y) hfx hfy hle
  linarith

/-- What is numerically equal to a finite number is finite. -/
theorem isFinite_of_beq (hx : x.isFinite = true) (h : (x == y) = true) : y.isFinite = true := by
  obtain ⟨-, hy, heq⟩ := beq_iff.1 h
  have hfin : x.toModel.unpack.isFinite = true := hx
  have hinf (s : Sign) : x.toModel.unpack ≠ .infinity s := by
    intro hs
    rw [hs] at hfin
    cases hfin
  obtain ⟨hlow, hhigh⟩ := place_between (canonical x) hinf
  change position x < _ at hhigh
  rw [show place x.toModel.unpack = position y from heq] at hlow
  rw [heq] at hhigh
  exact isFinite_of_between (isNaN_eq_false_iff.1 hy) hlow hhigh

/-- The difference of numerically equal numbers is zero. -/
theorem sub_beq_zero (hx : x.isFinite = true) (h : (x == y) = true) : (y - x == 0) = true := by
  have hy := isFinite_of_beq hx h
  obtain ⟨hle, hge⟩ := beq_iff_le.1 h
  have hsub := isNearest_sub hy hx
  rw [le_antisymm (value_le hy hx hge) (value_le hx hy hle), sub_self] at hsub
  exact beq_iff.2 ⟨hsub.defined, rfl, hsub.position_eq.trans nearest_zero⟩

/-- Between numbers that are at least zero a difference stays finite. -/
theorem isFinite_sub (hx : 0 ≤ x) (h : x ≤ y) (hy : y.isFinite = true) :
    (y - x).isFinite = true := by
  have hfx := isFinite_of_le hx h hy
  have hnearest := isNearest_sub hy hfx
  have hle : y - x ≤ y := by
    refine hnearest.le (isNearest_value hy) ?_
    linarith [value_nonneg hfx hx]
  exact isFinite_of_le (sub_nonneg h hnearest.defined) hle hy

/-! ## Products -/

theorem isNaN_of_mul (h : (x * y).isNaN = false) : x.isNaN = false ∧ y.isNaN = false := by
  rw [isNaN_eq_false_iff, unpack_mul] at h
  rw [isNaN_eq_false_iff, isNaN_eq_false_iff]
  exact ne_of_mul h

theorem mul_le_mul_right (h : x ≤ y) (hr : 0 ≤ r) (hfin : r.isFinite = true)
    (hd : (x * r).isNaN = false) (hd' : (y * r).isNaN = false) : x * r ≤ y * r := by
  refine le_iff.2 ⟨hd, hd', ?_⟩
  obtain ⟨hx, hy, hle⟩ := le_iff.1 h
  rw [isNaN_eq_false_iff] at hx hy
  rw [isNaN_eq_false_iff, unpack_mul] at hd hd'
  rw [position, position, unpack_mul, unpack_mul]
  have hmono : Monotone fun q : ℚ => q * value r :=
    fun p q hpq => mul_le_mul_of_nonneg_right hpq (value_nonneg hfin hr)
  exact place_le_of_monotone (f := fun a => UnpackedFloat.mul Format.binary64 a r.toModel.unpack) hmono
    (fun a ha hfa => rounds_mul ha (canonical r) hfa hfin)
    (fun s => repack_mul_infinity (canonical r) hfin (le_iff.1 hr).2.2 s)
    (canonical x) (canonical y) hx hy hle hd hd'

theorem mul_nonneg (h : 0 ≤ x) (hr : 0 ≤ r) (hfin : r.isFinite = true)
    (hd : (x * r).isNaN = false) : 0 ≤ x * r := by
  have hzero := isNearest_mul (x := 0) rfl hfin
  rw [show value 0 = 0 from rfl, zero_mul] at hzero
  exact le_trans (isNearest_zero.le hzero le_rfl) (mul_le_mul_right h hr hfin hzero.defined hd)

theorem mul_nonpos (h : x ≤ 0) (hr : 0 ≤ r) (hfin : r.isFinite = true)
    (hd : (x * r).isNaN = false) : x * r ≤ 0 := by
  have hzero := isNearest_mul (x := 0) rfl hfin
  rw [show value 0 = 0 from rfl, zero_mul] at hzero
  exact le_trans (mul_le_mul_right h hr hfin hd hzero.defined) (hzero.le isNearest_zero le_rfl)

/-! ## Quotients -/

theorem isNaN_of_div (h : (x / y).isNaN = false) : x.isNaN = false ∧ y.isNaN = false := by
  rw [isNaN_eq_false_iff, unpack_div] at h
  rw [isNaN_eq_false_iff, isNaN_eq_false_iff]
  exact ne_of_div h

theorem div_le_div_right (h : x ≤ y) (hr : 0 < r) (hfin : r.isFinite = true)
    (hd : (x / r).isNaN = false) (hd' : (y / r).isNaN = false) : x / r ≤ y / r := by
  refine le_iff.2 ⟨hd, hd', ?_⟩
  obtain ⟨hx, hy, hle⟩ := le_iff.1 h
  obtain ⟨m, e, hm, hunpack⟩ := exists_unpack_eq hfin hr
  rw [isNaN_eq_false_iff] at hx hy
  rw [isNaN_eq_false_iff, unpack_div, hunpack] at hd hd'
  rw [position, position, unpack_div, unpack_div, hunpack]
  have hmono : Monotone fun q : ℚ => q / value r :=
    fun p q hpq => div_le_div_of_nonneg_right hpq (value_nonneg hfin (le_of_lt hr))
  rw [value, hunpack] at hmono
  exact place_le_of_monotone
    (f := fun a => UnpackedFloat.div Format.binary64 a (.finite .positive m e hm)) hmono
    (fun a ha hfa => rounds_div ha hfa .positive hm) (fun s _ => repack_div_infinity hm s)
    (canonical x) (canonical y) hx hy hle hd hd'

theorem div_nonneg (h : 0 ≤ x) (hr : 0 < r) (hfin : r.isFinite = true)
    (hd : (x / r).isNaN = false) : 0 ≤ x / r := by
  have hzero := isNearest_div (x := 0) rfl hfin hr
  rw [show value 0 = 0 from rfl, zero_div] at hzero
  exact le_trans (isNearest_zero.le hzero le_rfl) (div_le_div_right h hr hfin hzero.defined hd)

theorem div_nonpos (h : x ≤ 0) (hr : 0 < r) (hfin : r.isFinite = true)
    (hd : (x / r).isNaN = false) : x / r ≤ 0 := by
  have hzero := isNearest_div (x := 0) rfl hfin hr
  rw [show value 0 = 0 from rfl, zero_div] at hzero
  exact le_trans (div_le_div_right h hr hfin hd hzero.defined) (hzero.le isNearest_zero le_rfl)

/-! ## The total order -/

section Bits

variable (b : BitVec Format.binary64.numBits)

theorem toNat_unpackMantissa : (unpackMantissa b).toNat = b.toNat % 2 ^ 52 := by
  simp [unpackMantissa, BitVec.extractLsb_toNat]

theorem toNat_unpackExponent : (unpackExponent b).toNat = b.toNat / 2 ^ 52 % 2 ^ 11 := by
  simp [unpackExponent, BitVec.extractLsb_toNat, Nat.shiftRight_eq_div_pow]

theorem ofBitVec_unpackSign :
    Sign.ofBitVec (unpackSign b) = if b.toNat < 2 ^ 63 then .positive else .negative := by
  have hsign : (unpackSign b).toNat = b.toNat / 2 ^ 63 % 2 := by
    simp [unpackSign, BitVec.extractLsb_toNat, Nat.shiftRight_eq_div_pow]
  have hlt : b.toNat < 2 ^ 64 := b.isLt
  have hiff : unpackSign b = 0#1 ↔ b.toNat < 2 ^ 63 := by
    rw [← BitVec.toNat_inj, hsign]
    change b.toNat / 2 ^ 63 % 2 = 0 ↔ _
    omega
  unfold Sign.ofBitVec
  simp only [hiff]

/-- Below the sign, the bits of a number count its place. -/
theorem place_unpack (h : unpack Format.binary64 b ≠ .notANumber) :
    place (unpack Format.binary64 b) =
      (Sign.ofBitVec (unpackSign b)).apply ((b.toNat % 2 ^ 63 : ℕ) : ℤ) := by
  have hmantissa := toNat_unpackMantissa b
  have hexponent := toNat_unpackExponent b
  have hbias : ((Format.binary64.exponentBias : ℕ) : ℤ) = 1023 := rfl
  have hbits : ((Format.binary64.mantissaBitsWithoutImplicit : ℕ) : ℤ) = 52 := rfl
  rw [UnpackedFloat.unpack] at h ⊢
  split
  · next htop =>
    have htop : (unpackExponent b).toNat = 2047 := congrArg BitVec.toNat htop
    split
    · next hzero =>
      have hzero : (unpackMantissa b).toNat = 0 := congrArg BitVec.toNat hzero
      have hplace : ((b.toNat % 2 ^ 63 : ℕ) : ℤ) = 2047 * 2 ^ 52 := by omega
      rw [hplace]
      rfl
    · next hnan =>
      rw [if_pos ‹_›, if_neg hnan] at h
      exact absurd rfl h
  · split
    · next hbottom =>
      have hbottom : (unpackExponent b).toNat = 0 := congrArg BitVec.toNat hbottom
      split
      · next hzero =>
        have hzero : (unpackMantissa b).toNat = 0 := congrArg BitVec.toNat hzero
        have hplace : ((b.toNat % 2 ^ 63 : ℕ) : ℤ) = 0 := by omega
        rw [hplace]
        cases Sign.ofBitVec (unpackSign b) <;> rfl
      · have hplace : ((b.toNat % 2 ^ 63 : ℕ) : ℤ) = steps (unpackMantissa b).toNat
            ((unpackExponent b).toNat - (Format.binary64.exponentBias +
              Format.binary64.mantissaBitsWithoutImplicit) + 1) := by
          unfold steps
          omega
        rw [hplace]
        rfl
    · have hplace : ((b.toNat % 2 ^ 63 : ℕ) : ℤ) = steps (1#1 ++ unpackMantissa b).toNat
          ((unpackExponent b).toNat - (Format.binary64.exponentBias +
            Format.binary64.mantissaBitsWithoutImplicit)) := by
        have happend : (1#1 ++ unpackMantissa b).toNat = 2 ^ 52 + (unpackMantissa b).toNat :=
          toNat_one_append _
        unfold steps
        omega
      rw [hplace]
      rfl

end Bits

/-- The total order places negative numbers one step below, to have room for the negative zero. -/
theorem position_eq_rank_or {x : Float} (h : x.isNaN = false) :
    0 ≤ rank x ∧ position x = rank x ∨ rank x < 0 ∧ position x = rank x + 1 := by
  rw [isNaN_eq_false_iff] at h
  have hplace : position x = _ := place_unpack _ h
  have hlt : x.toModel.toBits.toBitVec.toNat < 2 ^ 64 := x.toModel.toBits.toBitVec.isLt
  rw [ofBitVec_unpackSign] at hplace
  have hrank : rank x = if x.toModel.toBits.toBitVec.toNat < 2 ^ 63
      then (x.toModel.toBits.toBitVec.toNat : ℤ) else 2 ^ 63 - 1 - x.toModel.toBits.toBitVec.toNat := rfl
  rw [hrank, hplace]
  generalize x.toModel.toBits.toBitVec.toNat = n at hlt ⊢
  split
  · left
    change _ ∧ ((n % 2 ^ 63 : ℕ) : ℤ) = n
    omega
  · right
    change _ ∧ -((n % 2 ^ 63 : ℕ) : ℤ) = _
    omega

/-- Numbers in the total order are in the numeric order. -/
theorem le_of_rank_le {x y : Float} (hx : x.isNaN = false) (hy : y.isNaN = false)
    (h : rank x ≤ rank y) : x ≤ y := by
  refine le_iff.2 ⟨hx, hy, ?_⟩
  have := position_eq_rank_or hx
  have := position_eq_rank_or hy
  omega

/-! ## Naturals -/

theorem unpack_ofNat_two_pow : (Float.ofNat (2 ^ 53)).toModel.unpack =
    .finite .positive (2 ^ 52) 1 (by decide) := rfl

/-- Up to `2 ^ 53` a natural is a number of its own. -/
theorem value_ofNat {n : ℕ} (h : n ≤ 2 ^ 53) :
    (Float.ofNat n).isFinite = true ∧ value (Float.ofNat n) = n := by
  rw [value]
  change (Float.ofNat n).toModel.unpack.isFinite = true ∧ _
  rcases Nat.eq_zero_or_pos n with rfl | hpos
  · exact ⟨rfl, rfl⟩
  rcases h.lt_or_eq with hlt | rfl
  · rw [unpack_ofNat hpos.ne' hlt]
    have hlog : n.log2 ≤ 52 := Nat.le_of_lt_succ ((Nat.log2_lt hpos.ne').2 hlt)
    refine ⟨rfl, ?_⟩
    rw [valueOf, significand]
    push_cast
    rw [signed, mul_assoc, ← two_zpow_add, show (n.log2 : ℤ) - 52 + (52 - n.log2 : ℕ) = 0 by omega,
      zpow_zero, mul_one]
  · rw [unpack_ofNat_two_pow]
    refine ⟨rfl, ?_⟩
    rw [valueOf, signed]
    norm_num

theorem isNearest_ofNat {n : ℕ} (h : n ≤ 2 ^ 53) : IsNearest (Float.ofNat n) n := by
  obtain ⟨hfin, hvalue⟩ := value_ofNat h
  rw [← hvalue]
  exact isNearest_value hfin

theorem ofNat_pos {n : ℕ} (hpos : 0 < n) (h : n ≤ 2 ^ 53) : 0 < Float.ofNat n := by
  rcases h.lt_or_eq with hlt | rfl
  · exact ofNat_lt_ofNat hpos hlt
  · decide

theorem ofNat_nonneg {n : ℕ} (h : n ≤ 2 ^ 53) : 0 ≤ Float.ofNat n :=
  isNearest_zero.le (isNearest_ofNat h) n.cast_nonneg

end RhythmChart.Binary64
