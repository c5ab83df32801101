import Mathlib
import RhythmChart.Base36
import RhythmChart.Decimal
import RhythmChart.Text

/-!
# Texts up to letter case

`upper` changes lower case letters only, so what does not tell the letters `a` to `z` from `A` to `Z` is
the same for a text in upper case.  Functions that take texts apart by such properties commute with
`upper`; functions that read digits and numerals do not see it.
-/

namespace RhythmChart.Text

/-! ## Characters -/

/-- A character is the same in upper case, or it is one of 26 letters. -/
theorem toUpper_eq_or_exists (c : Char) : c.toUpper = c ∨ ∃ i : Fin 26, c = Char.ofNat (97 + i) := by
  by_cases hlower : c.isLower = true
  · simp only [Char.isLower, Bool.and_eq_true, decide_eq_true_eq, ge_iff_le,
      UInt32.le_iff_toNat_le] at hlower
    obtain ⟨hle, hle'⟩ := hlower
    change 97 ≤ c.toNat at hle
    change c.toNat ≤ 122 at hle'
    refine .inr ⟨⟨c.toNat - 97, by omega⟩, ?_⟩
    rw [Nat.add_sub_cancel' hle, Char.ofNat_toNat]
  · exact .inl (Char.toUpper_eq_of_not_isLower hlower)

/-- What is the same for the 26 letters in both cases is the same for any character in upper case. -/
theorem toUpper_congr {β : Type} {f : Char → β}
    (h : ∀ i : Fin 26, f (Char.ofNat (97 + i)).toUpper = f (Char.ofNat (97 + i))) (c : Char) :
    f c.toUpper = f c := by
  rcases toUpper_eq_or_exists c with heq | ⟨i, rfl⟩
  · rw [heq]
  · exact h i

theorem toUpper_of_isDigit {c : Char} (h : c.isDigit = true) : c.toUpper = c := by
  rcases toUpper_eq_or_exists c with heq | ⟨i, rfl⟩
  · exact heq
  · revert i
    decide

@[simp]
theorem isBlank_toUpper (c : Char) : isBlank c.toUpper = isBlank c := toUpper_congr (by decide) c

@[simp]
theorem isDigit_toUpper (c : Char) : c.toUpper.isDigit = c.isDigit := toUpper_congr (by decide) c

@[simp]
theorem isAlphanum_toUpper (c : Char) : c.toUpper.isAlphanum = c.isAlphanum :=
  toUpper_congr (by decide) c

@[simp]
theorem utf8Size_toUpper (c : Char) : c.toUpper.utf8Size = c.utf8Size := toUpper_congr (by decide) c

/-- A character that is no letter is itself in upper case, and no other character is. -/
theorem toUpper_eq_iff {d : Char} (h : d.isAlpha = false) {c : Char} : c.toUpper = d ↔ c = d := by
  rcases toUpper_eq_or_exists c with heq | ⟨i, rfl⟩
  · rw [heq]
  · have hletter : (Char.ofNat (97 + i)).isAlpha = true ∧ (Char.ofNat (97 + i)).toUpper.isAlpha = true := by
      revert i
      decide
    constructor
    · rintro rfl
      rw [hletter.2] at h
      cases h
    · rintro rfl
      rw [hletter.1] at h
      cases h

/-! ## Texts -/

section Upper

variable {p : Char → Bool} (s : List Char)

theorem upper_reverse : upper s.reverse = (upper s).reverse := List.map_reverse ..

@[simp]
theorem upper_eq_nil_iff : upper s = [] ↔ s = [] := List.map_eq_nil_iff

@[simp]
theorem length_upper : (upper s).length = s.length := List.length_map ..

@[simp]
theorem byteLength_upper : byteLength (upper s) = byteLength s := by
  induction s with
  | nil => rfl
  | cons c s ih => rw [byteLength_cons, ← ih, ← utf8Size_toUpper]; rfl

@[simp]
theorem upper_upper : upper (upper s) = upper s := by
  rw [upper, upper, List.map_map]
  exact List.map_congr_left fun c _ => Char.toUpper_toUpper_eq_toUpper c

theorem upper_of_isDigit {s : List Char} (h : ∀ c ∈ s, c.isDigit = true) : upper s = s :=
  (List.map_congr_left fun c hc => toUpper_of_isDigit (h c hc)).trans (List.map_id s)

/-- Digits are told from other texts in any case. -/
theorem upper_eq_iff {t : List Char} (h : ∀ c ∈ t, c.isDigit = true) : upper s = t ↔ s = t := by
  constructor
  · rintro rfl
    refine (upper_of_isDigit fun c hc => ?_).symm
    rw [← isDigit_toUpper]
    exact h _ (List.mem_map_of_mem hc)
  · rintro rfl
    exact upper_of_isDigit h

variable (hp : ∀ c : Char, p c.toUpper = p c)

include hp

theorem takeWhile_upper : (upper s).takeWhile p = upper (s.takeWhile p) := by
  rw [upper, List.takeWhile_map, show p ∘ Char.toUpper = p from funext hp]
  rfl

theorem dropWhile_upper : (upper s).dropWhile p = upper (s.dropWhile p) := by
  rw [upper, List.dropWhile_map, show p ∘ Char.toUpper = p from funext hp]
  rfl

theorem all_upper : (upper s).all p = s.all p := by
  rw [upper, List.all_map, show p ∘ Char.toUpper = p from funext hp]

theorem cut?_upper : cut? p (upper s) = (cut? p s).map (Prod.map upper upper) := by
  induction s with
  | nil => rfl
  | cons c s ih =>
    change cut? p (c.toUpper :: upper s) = _
    unfold cut?
    rw [hp, ih]
    cases p c with
    | true => rfl
    | false =>
      rw [if_neg Bool.false_ne_true, if_neg Bool.false_ne_true, Option.map_map, Option.map_map]
      rfl

end Upper

section Blanks

variable (s : List Char)

theorem trimStart_upper : trimStart (upper s) = upper (trimStart s) := dropWhile_upper s isBlank_toUpper

theorem trimEnd_upper : trimEnd (upper s) = upper (trimEnd s) := by
  rw [trimEnd, ← upper_reverse, dropWhile_upper _ isBlank_toUpper, ← upper_reverse]
  rfl

theorem trim_upper : trim (upper s) = upper (trim s) := by
  rw [trim, trimStart_upper, trimEnd_upper]
  rfl

theorem firstWord?_upper : firstWord? (upper s) = (firstWord? s).map upper := by
  unfold firstWord?
  rw [trimStart_upper]
  cases trimStart s with
  | nil => rfl
  | cons c r =>
    refine congrArg some (takeWhile_upper (c :: r) fun d => ?_)
    rw [isBlank_toUpper]

end Blanks

theorem unquote_upper (s : List Char) : unquote (upper s) = upper (unquote s) := by
  have hquote {c : Char} : c.toUpper = '"' ↔ c = '"' := toUpper_eq_iff (by decide)
  cases s with
  | nil => rfl
  | cons c r =>
    by_cases hc : c = '"'
    · have hlast : (upper r).getLast? = some '"' ↔ r.getLast? = some '"' := by
        rw [upper, List.getLast?_map, Option.map_eq_some_iff]
        simp only [hquote, exists_eq_right]
      rw [hc]
      change (if (upper r).getLast? = some '"' then (upper r).dropLast else _) =
        upper (if r.getLast? = some '"' then r.dropLast else _)
      by_cases h : r.getLast? = some '"'
      · rw [if_pos (hlast.2 h), if_pos h]
        exact List.map_dropLast.symm
      · rw [if_neg (mt hlast.1 h), if_neg h]
    · have hplain {c : Char} (hc : c ≠ '"') (r : List Char) : unquote (c :: r) = c :: r := by
        unfold unquote
        split
        · next heq =>
          cases heq
          exact absurd rfl hc
        · rfl
      rw [hplain hc]
      exact hplain (mt hquote.1 hc) (upper r)

end RhythmChart.Text

namespace RhythmChart

open Text

@[simp]
theorem Digit.ofChar?_toUpper (c : Char) : ofChar? c.toUpper = ofChar? c := toUpper_congr (by decide) c

/-- A character is read as the digit that is printed as its upper case. -/
theorem Digit.ofChar?_eq_some_iff {c : Char} {d : Digit} : ofChar? c = some d ↔ c.toUpper = d.toChar := by
  constructor
  · intro h
    have hcode : c.toNat < 128 := by
      unfold ofChar? at h
      split at h
      · omega
      · split at h
        · omega
        · split at h
          · omega
          · cases h
    have hascii : ∀ n : Fin 128, ∀ e ∈ ofChar? (Char.ofNat n), (Char.ofNat n).toUpper = e.toChar := by
      decide +kernel
    have hc := hascii ⟨c.toNat, hcode⟩ d
    rw [Char.ofNat_toNat] at hc
    exact hc h
  · intro h
    rw [← ofChar?_toUpper, h, ofChar?_toChar]

/-! ## Numerals -/

namespace Decimal

theorem takeSign_upper (s : List Char) : takeSign (upper s) = (takeSign s).map id upper := by
  have hplus {c : Char} : c.toUpper = '+' ↔ c = '+' := toUpper_eq_iff (by decide)
  have hminus {c : Char} : c.toUpper = '-' ↔ c = '-' := toUpper_eq_iff (by decide)
  have hplain {c : Char} (hplus : c ≠ '+') (hminus : c ≠ '-') (r : List Char) :
      takeSign (c :: r) = (false, c :: r) := by
    unfold takeSign
    split
    · next heq =>
      cases heq
      exact absurd rfl hplus
    · next heq =>
      cases heq
      exact absurd rfl hminus
    · rfl
  cases s with
  | nil => rfl
  | cons c r =>
    by_cases hc : c = '+'
    · rw [hc]
      rfl
    · by_cases hc' : c = '-'
      · rw [hc']
        rfl
      · rw [hplain hc hc']
        exact hplain (mt hplus.1 hc) (mt hminus.1 hc') (upper r)

theorem takeDigits_upper (s : List Char) : takeDigits (upper s) = (takeDigits s).map id upper := by
  have hdigits : upper (s.takeWhile Char.isDigit) = s.takeWhile Char.isDigit :=
    upper_of_isDigit (List.all_eq_true.1 List.all_takeWhile)
  rw [takeDigits, takeWhile_upper s isDigit_toUpper, dropWhile_upper s isDigit_toUpper, hdigits]
  rfl

theorem takeFraction_upper (s : List Char) : takeFraction (upper s) = (takeFraction s).map id upper := by
  have hpoint {c : Char} : c.toUpper = '.' ↔ c = '.' := toUpper_eq_iff (by decide)
  have hplain {c : Char} (hc : c ≠ '.') (r : List Char) : takeFraction (c :: r) = ([], c :: r) := by
    unfold takeFraction
    split
    · next heq =>
      cases heq
      exact absurd rfl hc
    · rfl
  cases s with
  | nil => rfl
  | cons c r =>
    by_cases hc : c = '.'
    · rw [hc]
      exact takeDigits_upper r
    · rw [hplain hc]
      exact hplain (mt hpoint.1 hc) (upper r)

theorem exponent?_upper (s : List Char) : exponent? (upper s) = exponent? s := by
  have hmark (c : Char) : (c.toUpper = 'e' ∨ c.toUpper = 'E') = (c = 'e' ∨ c = 'E') :=
    toUpper_congr (f := fun c => c = 'e' ∨ c = 'E') (by decide) c
  cases s with
  | nil => rfl
  | cons c s =>
    change exponent? (c.toUpper :: upper s) = _
    unfold exponent?
    dsimp only
    rw [takeSign_upper]
    simp only [hmark, Prod.map_fst, Prod.map_snd, id, all_upper _ isDigit_toUpper, ne_eq,
      upper_eq_nil_iff]
    split
    · next h => rw [upper_of_isDigit (List.all_eq_true.1 h.2.2)]
    · rfl

theorem ofText?_upper (s : List Char) : ofText? (upper s) = ofText? s := by
  unfold ofText?
  rw [takeSign_upper]
  simp only [Prod.map_fst, Prod.map_snd, id, takeDigits_upper, takeFraction_upper, exponent?_upper]

theorem finite?_upper (s : List Char) : finite? (upper s) = finite? s := by
  rw [finite?, trim_upper, ofText?_upper]
  rfl

end Decimal

end RhythmChart
