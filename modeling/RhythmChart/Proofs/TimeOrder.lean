import RhythmChart.Proofs.Decoding

/-!
# The order of times

Times are compared by their tracks and by cross products of their fractions, but they are equal only if all
their parts are.  Both fit together because a fraction is in lowest terms in one way only: times have the order
of their positions on the chart (`compare_eq_compare_measure`), and two times at one position are the same
(`eq_of_measure_eq`).

Words suffice for the parts of a time: in words of 64 bits Euclid's loop finds the greatest common divisor
(`toNat_euclid`) and the quotients are the parts (`map_reduce?`), and words of 128 bits hold the cross products.
`ofWords?_exact` says all this of the times that are made of words.
-/

namespace RhythmChart.SlotTime

/-! ## Positions -/

section Order

variable {s t : SlotTime}

/-- Cross products have the order of the fractions. -/
theorem compare_cross (s t : SlotTime) :
    compare (s.numerator * t.denominator) (t.numerator * s.denominator) = compare s.share t.share := by
  have hlt {s t : SlotTime} (h : s.numerator * t.denominator < t.numerator * s.denominator) :
      s.share < t.share :=
    (div_lt_div_iff₀ s.denominator_pos t.denominator_pos).2 (by exact_mod_cast h)
  rcases Nat.lt_trichotomy (s.numerator * t.denominator) (t.numerator * s.denominator) with h | h | h
  · rw [Nat.compare_eq_lt.2 h, compare_lt_iff_lt.2 (hlt h)]
  · have hshare : s.share = t.share :=
      (div_eq_div_iff s.denominator_pos.ne' t.denominator_pos.ne').2 (by exact_mod_cast h)
    rw [Nat.compare_eq_eq.2 h, compare_eq_iff_eq.2 hshare]
  · rw [Nat.compare_eq_gt.2 h, compare_gt_iff_gt.2 (hlt h)]

/-- A position is before all positions of later tracks. -/
theorem measure_lt_of_track (h : s.track.number < t.track.number) : (s.measure : ℚ) < t.measure := by
  have hstep : (s.track.number : ℚ) + 1 ≤ t.track.number := by exact_mod_cast h
  calc (s.measure : ℚ) < s.track.number + 1 := s.measure_mem_track.2
    _ ≤ t.track.number := hstep
    _ ≤ t.measure := t.measure_mem_track.1

/-- Times have the order of their positions. -/
theorem compare_eq_compare_measure (s t : SlotTime) : compare s t = compare (s.measure : ℚ) t.measure := by
  change (compare s.track.number t.track.number).then
    (compare (s.numerator * t.denominator) (t.numerator * s.denominator)) = _
  rw [compare_cross]
  rcases Nat.lt_trichotomy s.track.number t.track.number with h | h | h
  · rw [Nat.compare_eq_lt.2 h, compare_lt_iff_lt.2 (measure_lt_of_track h), Ordering.lt_then]
  · rw [Nat.compare_eq_eq.2 h, Ordering.eq_then, measure_eq_share, measure_eq_share, h, ← cmp_eq_compare,
      ← cmp_eq_compare, cmp_add_left]
  · rw [Nat.compare_eq_gt.2 h, compare_gt_iff_gt.2 (measure_lt_of_track h), Ordering.gt_then]

theorem isLE_compare_iff : (compare s t).isLE = true ↔ (s.measure : ℚ) ≤ t.measure := by
  rw [compare_eq_compare_measure, Ordering.isLE_iff_ne_gt]
  exact (not_congr compare_gt_iff_gt).trans not_lt

/-- A fraction is in lowest terms in one way only. -/
theorem eq_of_share_eq (h : s.share = t.share) :
    s.numerator = t.numerator ∧ s.denominator = t.denominator := by
  have hpos (t : SlotTime) : (0 : ℤ) < t.denominator := Int.natCast_pos.2 (Nat.zero_lt_of_lt t.lt)
  have hcoprime (t : SlotTime) : (t.numerator : ℤ).natAbs.Coprime (t.denominator : ℤ).natAbs := t.coprime
  have hfractions : ((s.numerator : ℤ) : ℚ) / (s.denominator : ℤ) = (t.numerator : ℤ) / (t.denominator : ℤ) := by
    rw [Int.cast_natCast, Int.cast_natCast, Int.cast_natCast, Int.cast_natCast]
    exact h
  obtain ⟨hnum, hden⟩ := Rat.div_int_inj (hpos s) (hpos t) (hcoprime s) (hcoprime t) hfractions
  exact ⟨Int.natCast_inj.1 hnum, Int.natCast_inj.1 hden⟩

/-- Two times at one position are the same. -/
theorem eq_of_measure_eq (h : (s.measure : ℚ) = t.measure) : s = t := by
  have htrack : s.track.number = t.track.number := by
    rcases Nat.lt_trichotomy s.track.number t.track.number with hlt | heq | hgt
    · exact absurd h (measure_lt_of_track hlt).ne
    · exact heq
    · exact absurd h (measure_lt_of_track hgt).ne'
  rw [measure_eq_share, measure_eq_share, htrack, add_right_inj] at h
  obtain ⟨hnum, hden⟩ := eq_of_share_eq h
  obtain ⟨⟨_⟩, _, _, _, _⟩ := s
  obtain ⟨⟨_⟩, _, _, _, _⟩ := t
  cases htrack
  cases hnum
  cases hden
  rfl

end Order

instance : Std.TransOrd SlotTime where
  eq_swap {s t} := by
    rw [compare_eq_compare_measure, compare_eq_compare_measure t]
    exact Std.OrientedOrd.eq_swap
  isLE_trans {s t u} := by
    rw [compare_eq_compare_measure, compare_eq_compare_measure t, compare_eq_compare_measure s]
    exact Std.TransOrd.isLE_trans

instance : Std.LawfulEqOrd SlotTime where
  eq_of_compare {s t} h := by
    rw [compare_eq_compare_measure, compare_eq_iff_eq] at h
    exact eq_of_measure_eq h

/-! ## Words -/

/-- Euclid's loop: `a` and `b` become `b` and the remainder of `a` by `b`, until `b` is zero. -/
def euclid (a b : UInt64) : UInt64 := if b = 0 then a else euclid b (a % b)
termination_by b.toNat
decreasing_by
  rw [UInt64.toNat_mod]
  exact Nat.mod_lt _ (Nat.pos_of_ne_zero fun h => ‹¬ b = 0› (UInt64.toNat_inj.1 h))

/-- The numerator and the denominator of `n / d` in lowest terms, if it is less than one and no denominator
comes out as zero. -/
def reduce? (n d : UInt64) : Option (UInt64 × UInt64) :=
  if d ≤ n then none
  else if d / euclid n d = 0 then none
  else some (n / euclid n d, d / euclid n d)

theorem toNat_euclid (a b : UInt64) : (euclid a b).toNat = a.toNat.gcd b.toNat := by
  fun_induction euclid a b with
  | case1 a => rw [UInt64.toNat_zero, Nat.gcd_zero_right]
  | case2 a b hb ih => rw [ih, UInt64.toNat_mod, Nat.gcd_comm, ← Nat.gcd_rec, Nat.gcd_comm]

/-- The denominator in lowest terms is never zero. -/
theorem div_euclid_ne_zero {n d : UInt64} (h : n < d) : d / euclid n d ≠ 0 := by
  have hd : 0 < d.toNat := Nat.zero_lt_of_lt (UInt64.lt_iff_toNat_lt.1 h)
  have hpos : 0 < d.toNat / n.toNat.gcd d.toNat :=
    Nat.div_pos (Nat.gcd_le_right _ hd) (Nat.gcd_pos_of_pos_right _ hd)
  intro hzero
  have hnat := congrArg UInt64.toNat hzero
  rw [UInt64.toNat_div, toNat_euclid, UInt64.toNat_zero] at hnat
  omega

/-- Words have the parts of the time. -/
theorem map_reduce? (track : Track) (n d : UInt64) :
    (reduce? n d).map (Prod.map UInt64.toNat UInt64.toNat) =
      (of? track n.toNat d.toNat).map fun t => (t.numerator, t.denominator) := by
  unfold reduce? of?
  by_cases h : n < d
  · rw [if_neg (UInt64.not_le.2 h), if_neg (div_euclid_ne_zero h), dif_pos (UInt64.lt_iff_toNat_lt.1 h)]
    simp only [Option.map_some, Prod.map_apply, UInt64.toNat_div, toNat_euclid]
  · rw [if_pos (UInt64.not_lt.1 h), dif_neg (mt UInt64.lt_iff_toNat_lt.2 h)]
    rfl

/-- The time of a position that is given in words. -/
def ofWords? (track n d : UInt64) : Option SlotTime := of? ⟨track.toNat⟩ n.toNat d.toNat

/-- The time is at the fraction `n / d` of the track, in lowest terms, and its parts are those found in words. -/
structure InLowestTerms (track n d : UInt64) (t : SlotTime) : Prop where
  track_eq : t.track.number = track.toNat
  cross : t.numerator * d.toNat = n.toNat * t.denominator
  lt : t.numerator < t.denominator
  coprime : t.numerator.gcd t.denominator = 1
  words : ∃ a b, reduce? n d = some (a, b) ∧ a.toNat = t.numerator ∧ b.toNat = t.denominator

section OfWords

variable {track n d : UInt64} {t : SlotTime}

theorem ofWords?_eq_none_iff : ofWords? track n d = none ↔ d ≤ n := by
  rw [ofWords?, of?, UInt64.le_iff_toNat_le]
  by_cases h : n.toNat < d.toNat
  · rw [dif_pos h]
    exact iff_of_false (Option.some_ne_none _) (Nat.not_le.2 h)
  · rw [dif_neg h]
    exact iff_of_true rfl (Nat.le_of_not_lt h)

theorem inLowestTerms (h : ofWords? track n d = some t) : InLowestTerms track n d t := by
  obtain ⟨htrack, hcross⟩ := eq_and_cross_of_of? h
  have hparts := map_reduce? ⟨track.toNat⟩ n d
  rw [← ofWords?, h, Option.map_some, Option.map_eq_some_iff] at hparts
  obtain ⟨⟨a, b⟩, hreduce, hab⟩ := hparts
  obtain ⟨hnum, hden⟩ := Prod.mk.inj hab
  exact ⟨congrArg Track.number htrack, hcross, t.lt, t.coprime, a, b, hreduce, hnum, hden⟩

theorem measure_of_ofWords? (h : ofWords? track n d = some t) :
    (t.measure : ℚ) = track.toNat + (n.toNat : ℚ) / d.toNat := by
  obtain ⟨hlt, rfl⟩ := of?_eq_some_iff.1 h
  exact measure_ofSlot ⟨track.toNat⟩ ⟨n.toNat, hlt⟩

/-- Cross products of words fit into 128 bits. -/
theorem InLowestTerms.cross_lt {track' n' d' : UInt64} {s : SlotTime} (hs : InLowestTerms track' n' d' s)
    (ht : InLowestTerms track n d t) : s.numerator * t.denominator < 2 ^ 128 := by
  obtain ⟨a, -, -, ha, -⟩ := hs.words
  obtain ⟨-, b, -, -, hb⟩ := ht.words
  rw [← ha, ← hb]
  calc a.toNat * b.toNat < 2 ^ 64 * 2 ^ 64 := Nat.mul_lt_mul'' a.toNat_lt b.toNat_lt
    _ = 2 ^ 128 := rfl

end OfWords

/-- Of words, a time is made just if the fraction is less than one, and it keeps the fraction in lowest terms.
Times of words are compared like their positions, with cross products that fit into 128 bits, and only the same
times compare equal.  The order of times is total. -/
theorem ofWords?_exact (track n d track' n' d' : UInt64) :
    (ofWords? track n d = none ↔ d ≤ n) ∧
      (∀ t, ofWords? track n d = some t → InLowestTerms track n d t) ∧
      (∀ s t, ofWords? track n d = some s → ofWords? track' n' d' = some t →
        compare s t =
            compare (track.toNat + (n.toNat : ℚ) / d.toNat) (track'.toNat + (n'.toNat : ℚ) / d'.toNat) ∧
          s.numerator * t.denominator < 2 ^ 128 ∧ t.numerator * s.denominator < 2 ^ 128 ∧
          (compare s t = .eq ↔ s = t) ∧
          (s = t ↔ s.track = t.track ∧ s.numerator = t.numerator ∧ s.denominator = t.denominator)) ∧
      (∀ s t : SlotTime, compare t s = (compare s t).swap) ∧
      IsLinearOrder SlotTime fun s t => (compare s t).isLE = true := by
  refine ⟨ofWords?_eq_none_iff, fun t => inLowestTerms, fun s t hs ht => ⟨?_, ?_, ?_, ?_, ?_⟩, fun s t => ?_, ?_⟩
  · rw [compare_eq_compare_measure, measure_of_ofWords? hs, measure_of_ofWords? ht]
  · exact (inLowestTerms hs).cross_lt (inLowestTerms ht)
  · exact (inLowestTerms ht).cross_lt (inLowestTerms hs)
  · exact Std.LawfulEqCmp.compare_eq_iff_eq
  · rw [SlotTime.mk.injEq]
  · exact Std.OrientedOrd.eq_swap
  · simp only [isLE_compare_iff]
    exact
      { refl := fun s => le_rfl
        trans := fun s t u => le_trans
        antisymm := fun s t hst hts => eq_of_measure_eq (le_antisymm hst hts)
        total := fun s t => le_total _ _ }

/-- Two slots of six and a third of the greatest word: one time, whose cross products are far apart in size. -/
theorem ofWords?_exact_of_thirds : ∃ s t, ofWords? 1 2 6 = some s ∧
    ofWords? 1 6148914691236517205 18446744073709551615 = some t ∧ compare s t = .eq ∧ s = t ∧
      InLowestTerms 1 6148914691236517205 18446744073709551615 t := by
  obtain ⟨s, hs⟩ : ∃ s, ofWords? 1 2 6 = some s := Option.isSome_iff_exists.1 (by decide +kernel)
  obtain ⟨t, ht⟩ : ∃ t, ofWords? 1 6148914691236517205 18446744073709551615 = some t :=
    Option.isSome_iff_exists.1 (by decide +kernel)
  obtain ⟨hcompare, -, -, heq, -⟩ := (ofWords?_exact 1 2 6 1 _ _).2.2.1 s t hs ht
  have hposition : compare s t = .eq := by
    rw [hcompare, compare_eq_iff_eq]
    simp only [UInt64.reduceToNat]
    norm_num
  exact ⟨s, t, hs, ht, hposition, heq.1 hposition, (ofWords?_exact 1 _ _ 1 2 6).2.1 t ht⟩

end RhythmChart.SlotTime
