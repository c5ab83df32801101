import RhythmChart.Proofs.Stages
import RhythmChart.Proofs.Timeline.Linear

/-!
# From measures to beats without rounding

The changes of a measure timeline stand at whole measures.  So within a measure the beats grow by one
rate, and the beat of a position is the sum of the rates of the measures before it and its share of its
own (`Whole.beat_add_eq_sum`).  `BeatsAt kept m v` says from the declarations which rate `v` that of the
measure `m` is.
-/

namespace RhythmChart

instance : LinearRate (MeasureChange ℚ) where
  slope c := c.beats.val
  advance_eq _ _ _ := rfl

namespace MeasureTimeline

def rate (t : MeasureTimeline ℚ) (m : ℕ) : ℚ := (t.current m).change.beats.val

/-- The changes stand at whole measures, and beats are counted from the measure zero. -/
structure Whole (t : MeasureTimeline ℚ) : Prop where
  resolved : t.Resolved 0
  whole : ∀ k ∈ t.knots, ∃ n : ℕ, k.position = n

namespace Whole

variable {t : MeasureTimeline ℚ}

theorem beat_zero (h : t.Whole) : t.beat 0 = 0 := by
  have hfirst : 0 ≤ t.first.position := by
    obtain ⟨n, hn⟩ := h.whole t.first (Array.getElem_mem _)
    rw [hn]
    exact n.cast_nonneg
  have hvalue : t.beat 0 = Rate.advance t.first.change 0 0 := h.resolved.valueAt_of_le_first hfirst
  rw [hvalue, LinearRate.advance_eq, zero_mul, add_zero]

/-- Within a measure the beats grow by its rate. -/
theorem beat_add (h : t.Whole) (m : ℕ) {x : ℚ} (hx : 0 ≤ x) (hx' : x ≤ 1) :
    t.beat (m + x) = t.beat m + x * t.rate m := by
  rcases hx.eq_or_lt with rfl | hpos
  · rw [add_zero, zero_mul, add_zero]
  · have hsub : t.beat (m + x) - t.beat m = (m + x - m) * t.rate m := by
      refine h.resolved.valueAt_sub (lt_add_of_pos_right _ hpos) fun i hi ⟨hafter, hbefore⟩ => ?_
      obtain ⟨n, hn⟩ := h.whole _ (Array.getElem_mem hi)
      rw [hn] at hafter hbefore
      have hmn : m < n := by exact_mod_cast hafter
      have hnm : n < m + 1 := by
        have : (n : ℚ) < m + 1 := hbefore.trans_le (add_le_add_right hx' _)
        exact_mod_cast this
      omega
    rw [add_sub_cancel_left] at hsub
    rw [← hsub, add_sub_cancel]

/-- The beat of a position is the sum of the beats of the measures before it and a share of its own. -/
theorem beat_add_eq_sum (h : t.Whole) (m : ℕ) {x : ℚ} (hx : 0 ≤ x) (hx' : x ≤ 1) :
    t.beat (m + x) = ∑ i ∈ Finset.range m, t.rate i + x * t.rate m := by
  have hsum : t.beat m = ∑ i ∈ Finset.range m, t.rate i := by
    induction m with
    | zero => rw [Nat.cast_zero, h.beat_zero, Finset.sum_range_zero]
    | succ m ih =>
      rw [Nat.cast_succ, h.beat_add m zero_le_one le_rfl, ih, one_mul, Finset.sum_range_succ]
  rw [h.beat_add m hx hx', hsum]

/-- The beats never decrease exactly when no measure has less than no beats. -/
theorem monotoneOn_iff (h : t.Whole) : MonotoneOn t.beat (Set.Ici 0) ↔ ∀ m, 0 ≤ t.rate m := by
  have hstep (m : ℕ) : t.beat ((m + 1 : ℕ) : ℚ) = t.beat m + t.rate m := by
    rw [Nat.cast_succ, h.beat_add m zero_le_one le_rfl, one_mul]
  constructor
  · intro hmono m
    have hle : t.beat m ≤ t.beat ((m + 1 : ℕ) : ℚ) :=
      hmono (Set.mem_Ici.2 m.cast_nonneg) (Set.mem_Ici.2 (Nat.cast_nonneg _)) (Nat.cast_le.2 m.le_succ)
    rwa [hstep, le_add_iff_nonneg_right] at hle
  · intro hrate p hp q hq hpq
    have hwhole : Monotone fun m : ℕ => t.beat m :=
      monotone_nat_of_le_succ fun m => by rw [hstep]; exact le_add_of_nonneg_right (hrate m)
    have hsplit {p : ℚ} (hp : 0 ≤ p) : ∃ (m : ℕ) (x : ℚ), 0 ≤ x ∧ x < 1 ∧ p = m + x :=
      ⟨⌊p⌋₊, p - ⌊p⌋₊, sub_nonneg.2 (Nat.floor_le hp), sub_lt_iff_lt_add'.2 (Nat.lt_floor_add_one p),
        (add_sub_cancel _ _).symm⟩
    obtain ⟨m, x, hx, hx', rfl⟩ := hsplit hp
    obtain ⟨n, y, hy, hy', rfl⟩ := hsplit hq
    rw [h.beat_add m hx hx'.le, h.beat_add n hy hy'.le]
    rcases lt_trichotomy m n with hmn | rfl | hnm
    · calc t.beat m + x * t.rate m ≤ t.beat m + t.rate m :=
            add_le_add_right (mul_le_of_le_one_left (hrate m) hx'.le) _
        _ = t.beat ((m + 1 : ℕ) : ℚ) := (hstep m).symm
        _ ≤ t.beat n := hwhole hmn
        _ ≤ t.beat n + y * t.rate n := le_add_of_nonneg_right (mul_nonneg hy (hrate n))
    · exact add_le_add_right (mul_le_mul_of_nonneg_right (by linarith) (hrate m)) _
    · have : (n : ℚ) + 1 ≤ m := by exact_mod_cast hnm
      linarith

end Whole

/-! ## Timelines of changes -/

theorem change_mem_ofChanges {cs : List (MeasureChange ℚ)} (h : cs ≠ [])
    {k : Knot (MeasureChange ℚ) ℚ} (hk : k ∈ (ofChanges cs).knots) : k.change ∈ cs := by
  rw [← map_change_ofChanges h]
  exact List.mem_map_of_mem (Array.mem_toList_iff.2 hk)

theorem exists_knot_ofChanges {cs : List (MeasureChange ℚ)} {c : MeasureChange ℚ} (hc : c ∈ cs) :
    ∃ k ∈ (ofChanges cs).knots, k.change = c := by
  rw [← map_change_ofChanges (List.ne_nil_of_mem hc)] at hc
  obtain ⟨k, hk, rfl⟩ := List.mem_map.1 hc
  exact ⟨k, Array.mem_toList_iff.1 hk, rfl⟩

theorem change_mem_ofChanges_nil {k : Knot (MeasureChange ℚ) ℚ} (hk : k ∈ (ofChanges []).knots) :
    k.change = initial := by
  have hmem := List.mem_map_of_mem (f := Knot.change) (Array.mem_toList_iff.2 hk)
  rw [map_change_ofChanges_nil] at hmem
  exact List.mem_singleton.1 hmem

theorem whole_ofChanges {cs : List (MeasureChange ℚ)}
    (hsorted : cs.Pairwise fun a b => a.measure ≤ b.measure)
    (hwhole : ∀ c ∈ cs, ∃ n : ℕ, c.measure = n) : (ofChanges cs).Whole := by
  cases cs with
  | nil =>
    refine ⟨Timeline.resolved_resolve _ (List.pairwise_singleton _ _), fun k hk => ⟨0, ?_⟩⟩
    exact congrArg MeasureChange.measure (change_mem_ofChanges_nil hk)
  | cons c cs =>
    refine ⟨Timeline.resolved_resolve _ hsorted, fun k hk => ?_⟩
    exact hwhole _ (change_mem_ofChanges (List.cons_ne_nil c cs) hk)

theorem rate_ofChanges_nil (m : ℕ) : (ofChanges []).rate m = 4 := by
  have hchange : ((ofChanges []).current m).change = initial :=
    change_mem_ofChanges_nil (Timeline.Resolved.current_mem _ _)
  rw [rate, hchange]
  rfl

/-- The beats of a measure are those of the last change at or before it, or else of the first one. -/
theorem rate_ofChanges_cases {cs : List (MeasureChange ℚ)} (hcs : cs ≠ [])
    (h : (ofChanges cs).Whole) (m : ℕ) : ∃ c ∈ cs, (ofChanges cs).rate m = c.beats.val ∧
      ((c.measure ≤ m ∧ ∀ c' ∈ cs, c'.measure ≤ m → c'.measure ≤ c.measure) ∨
        ∀ c' ∈ cs, m < c'.measure ∧ c.measure ≤ c'.measure) := by
  refine ⟨_, change_mem_ofChanges hcs (Timeline.Resolved.current_mem _ (m : ℚ)), rfl, ?_⟩
  rcases h.resolved.current_cases m with ⟨hle, hlast⟩ | hfirst
  · refine .inl ⟨hle, fun c hc => ?_⟩
    obtain ⟨k, hk, rfl⟩ := exists_knot_ofChanges hc
    exact hlast k hk
  · refine .inr fun c hc => ?_
    obtain ⟨k, hk, rfl⟩ := exists_knot_ofChanges hc
    exact hfirst k hk

end MeasureTimeline

/-! ## The measures of a chart -/

/-- The beats of a measure by the declarations kept: those of the greatest track at or before it, else
those of the smallest track, else four. -/
inductive BeatsAt (kept : Kept Track (Finite ℚ)) (m : ℕ) : ℚ → Prop
  | last {track : Track} {beats : Spanned (Finite ℚ)} (declared : kept[track]? = some beats)
      (le : track.number ≤ m)
      (greatest : ∀ other ∈ kept, other.number ≤ m → other.number ≤ track.number) :
      BeatsAt kept m beats.content.val
  | first {track : Track} {beats : Spanned (Finite ℚ)} (declared : kept[track]? = some beats)
      (after : ∀ other ∈ kept, m < other.number)
      (least : ∀ other ∈ kept, track.number ≤ other.number) :
      BeatsAt kept m beats.content.val
  | none (undeclared : ∀ track, track ∉ kept) : BeatsAt kept m 4

namespace BeatsAt

variable {kept : Kept Track (Finite ℚ)} {m : ℕ}

theorem mem_of_getElem? {track : Track} {beats : Spanned (Finite ℚ)}
    (declared : kept[track]? = some beats) : track ∈ kept :=
  Std.TreeMap.mem_iff_isSome_getElem?.2 (declared ▸ rfl)

theorem unique {v v' : ℚ} (h : BeatsAt kept m v) (h' : BeatsAt kept m v') : v = v' := by
  have hsame {track track' : Track} {beats beats' : Spanned (Finite ℚ)}
      (hd : kept[track]? = some beats) (hd' : kept[track']? = some beats')
      (heq : track.number = track'.number) : beats.content.val = beats'.content.val := by
    have : track = track' := by
      cases track
      cases track'
      exact congrArg Track.mk heq
    rw [this, hd'] at hd
    cases hd
    rfl
  cases h with
  | last hd hle hgreatest =>
    have hmem := mem_of_getElem? hd
    cases h' with
    | last hd' hle' hgreatest' =>
      exact hsame hd hd' (Nat.le_antisymm (hgreatest' _ hmem hle) (hgreatest _ (mem_of_getElem? hd') hle'))
    | first _ hafter _ => exact absurd hle (Nat.not_le.2 (hafter _ hmem))
    | none hnone => exact absurd hmem (hnone _)
  | first hd hafter hleast =>
    have hmem := mem_of_getElem? hd
    cases h' with
    | last hd' hle' _ => exact absurd hle' (Nat.not_le.2 (hafter _ (mem_of_getElem? hd')))
    | first hd' _ hleast' =>
      exact hsame hd hd' (Nat.le_antisymm (hleast _ (mem_of_getElem? hd')) (hleast' _ hmem))
    | none hnone => exact absurd hmem (hnone _)
  | none hnone =>
    cases h' with
    | last hd' _ _ => exact absurd (mem_of_getElem? hd') (hnone _)
    | first hd' _ _ => exact absurd (mem_of_getElem? hd') (hnone _)
    | none _ => rfl

end BeatsAt

namespace Chart

variable (kept : Kept Track (Finite ℚ))

theorem mem_measureChanges {c : MeasureChange ℚ} : c ∈ measureChanges kept ↔
    ∃ (track : Track) (beats : Spanned (Finite ℚ)), kept[track]? = some beats ∧
      c = ⟨(track.number : ℚ), beats.content⟩ := by
  unfold measureChanges
  rw [List.mem_map]
  constructor
  · rintro ⟨⟨track, beats⟩, hmem, rfl⟩
    exact ⟨track, beats, Std.TreeMap.mem_toList_iff_getElem?_eq_some.1 hmem, rfl⟩
  · rintro ⟨track, beats, hkept, rfl⟩
    exact ⟨(track, beats), Std.TreeMap.mem_toList_iff_getElem?_eq_some.2 hkept, rfl⟩

theorem whole_measureTimeline : (measureTimeline kept).Whole := by
  rw [measureTimeline_eq]
  refine MeasureTimeline.whole_ofChanges ?_ fun c hc => ?_
  · rw [measureChanges, List.pairwise_map]
    refine Std.TreeMap.ordered_keys_toList.imp fun {a b} hab => ?_
    exact Nat.cast_le.2 (Nat.compare_eq_lt.1 hab).le
  · obtain ⟨track, _, -, rfl⟩ := (mem_measureChanges kept).1 hc
    exact ⟨track.number, rfl⟩

theorem exists_measureChange {track : Track} (h : track ∈ kept) :
    ∃ c ∈ measureChanges kept, c.measure = track.number := by
  obtain ⟨beats, hbeats⟩ := Option.isSome_iff_exists.1 (Std.TreeMap.mem_iff_isSome_getElem?.1 h)
  exact ⟨_, (mem_measureChanges kept).2 ⟨track, beats, hbeats, rfl⟩, rfl⟩

/-- The rates of the measure timeline are the beats that the declarations kept say. -/
theorem beatsAt_rate (m : ℕ) : BeatsAt kept m ((measureTimeline kept).rate m) := by
  by_cases hnil : measureChanges kept = []
  · rw [measureTimeline_eq, hnil, MeasureTimeline.rate_ofChanges_nil]
    refine .none fun track hmem => ?_
    obtain ⟨c, hc, -⟩ := exists_measureChange kept hmem
    rw [hnil] at hc
    cases hc
  · obtain ⟨c, hc, hrate, hcases⟩ :=
      MeasureTimeline.rate_ofChanges_cases hnil (whole_measureTimeline kept) m
    obtain ⟨track, beats, hkept, rfl⟩ := (mem_measureChanges kept).1 hc
    rw [measureTimeline_eq, hrate]
    rcases hcases with ⟨hle, hgreatest⟩ | hfirst
    · refine .last hkept (Nat.cast_le.1 hle) fun other hmem hother => ?_
      obtain ⟨c, hc, hmeasure⟩ := exists_measureChange kept hmem
      have := hgreatest c hc (hmeasure ▸ Nat.cast_le.2 hother)
      exact Nat.cast_le.1 (hmeasure ▸ this)
    · refine .first hkept (fun other hmem => ?_) fun other hmem => ?_
      · obtain ⟨c, hc, hmeasure⟩ := exists_measureChange kept hmem
        exact Nat.cast_lt.1 (hmeasure ▸ (hfirst c hc).1)
      · obtain ⟨c, hc, hmeasure⟩ := exists_measureChange kept hmem
        exact Nat.cast_le.1 (hmeasure ▸ (hfirst c hc).2)

/-- The beat of a position is the sum of the beats of the measures before it, as the declarations kept
say them, and a share of its own. -/
theorem measures_beat_eq_sum (prompter : Prompter ℚ) (ts : List (Spanned (Token ℚ)))
    {kept : Kept Track (Finite ℚ)} {log : Log ℚ}
    (h : Yields (settle prompter .beatsPerMeasure (Token.beatsDeclarations ts)) Log.empty kept log) :
    Token.DeclaredBy Token.tracks ts (Token.beatsDeclarations ts) ∧
      (∀ d ∈ Token.beatsDeclarations ts, ⟨.beatsPerMeasure d.key d.value, d.span⟩ ∈ ts) ∧
      Grounded (Token.beatsDeclarations ts) kept ∧
      (∀ chart, (ofTokens prompter ts).result = .ok chart →
        chart.song.measures = measureTimeline kept) ∧
      ∃ r : ℕ → ℚ, (∀ m v, BeatsAt kept m v ↔ v = r m) ∧
        (∀ (N : ℕ) (x : ℚ), 0 ≤ x → x < 1 →
          (measureTimeline kept).beat (N + x) = ∑ m ∈ Finset.range N, r m + x * r N) ∧
        (MonotoneOn (measureTimeline kept).beat (Set.Ici 0) ↔ ∀ m, 0 ≤ r m) := by
  have hwhole := whole_measureTimeline kept
  refine ⟨Token.declaredBy_beats ts, fun d => Token.mem_beatsDeclarations_iff.1, h.grounded_settle,
    fun chart => measures_of_ofTokens_ok prompter h,
    (measureTimeline kept).rate, fun m v => ⟨fun hv => hv.unique (beatsAt_rate kept m), ?_⟩,
    fun N x hx hx' => hwhole.beat_add_eq_sum N hx hx'.le, hwhole.monotoneOn_iff⟩
  rintro rfl
  exact beatsAt_rate kept m

/-- Seven and then six beats are declared for the track 2, and the later declaration is kept. -/
theorem measures_beat_eq_sum_of_repeated :
    ∃ (kept : Kept Track (Finite ℚ)) (r : ℕ → ℚ), r 0 = 6 ∧
      (measureTimeline kept).beat ((3 : ℕ) + 1 / 2) = ∑ m ∈ Finset.range 3, r m + 1 / 2 * r 3 := by
  have hsettle : Yields (settle (Prompter.always (.keep .newer true)) .beatsPerMeasure
      (Token.beatsDeclarations [⟨.beatsPerMeasure ⟨2⟩ ⟨7, rfl⟩, ⟨0, 8⟩⟩,
        ⟨.beatsPerMeasure ⟨2⟩ ⟨6, rfl⟩, ⟨9, 17⟩⟩])) Log.empty
      ((∅ : Kept Track (Finite ℚ)).insert ⟨2⟩ ⟨⟨6, rfl⟩, ⟨9, 17⟩⟩) ⟨_, _⟩ := rfl
  obtain ⟨-, -, -, -, r, hr, hbeat, -⟩ := measures_beat_eq_sum _ _ hsettle
  have honly (other : Track) (h : other ∈ (∅ : Kept Track (Finite ℚ)).insert ⟨2⟩ ⟨⟨6, rfl⟩, ⟨9, 17⟩⟩) :
      other = ⟨2⟩ := by
    rcases Std.TreeMap.mem_insert.1 h with heq | hempty
    · exact (Std.LawfulEqOrd.eq_of_compare heq).symm
    · exact absurd hempty Std.TreeMap.not_mem_emptyc
  have hfirst := BeatsAt.first (m := 0) (rfl : ((∅ : Kept Track (Finite ℚ)).insert ⟨2⟩
    ⟨⟨6, rfl⟩, ⟨9, 17⟩⟩)[(⟨2⟩ : Track)]? = some ⟨⟨6, rfl⟩, ⟨9, 17⟩⟩)
    (fun other h => honly other h ▸ by decide) (fun other h => (honly other h).symm ▸ le_rfl)
  exact ⟨_, r, ((hr 0 _).1 hfirst).symm, hbeat 3 (1 / 2) (by norm_num) (by norm_num)⟩

end Chart

end RhythmChart
