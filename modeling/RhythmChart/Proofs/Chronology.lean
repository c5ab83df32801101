import RhythmChart.Proofs.Timeline.Rounded
import RhythmChart.Proofs.WellFormed

/-!
# Chronology

Times on a chart are compared as exact fractions, but their beats and seconds are rounded.  Still, what is
not later on the chart is not later in the song (`read_chronological`), if no measure has less than no
beats and no number on the way is undefined.

A slot has an exact time if binary64 numbers hold both parts of its fraction (`SlotTime.Exact`).  Beyond
that two different fractions can come out in the wrong order, but only a payload of more than `2 ^ 54`
characters has such slots.
-/

namespace RhythmChart

open Binary64

/-! ## Positions of slots -/

namespace SlotTime

/-- Both parts of the fraction are numbers that rounding leaves alone. -/
def Exact (t : SlotTime) : Prop := t.denominator ≤ 2 ^ 53

/-- The part of its track that is before the position. -/
def share (t : SlotTime) : ℚ := t.numerator / t.denominator

variable {s t : SlotTime}

theorem denominator_pos (t : SlotTime) : (0 : ℚ) < t.denominator :=
  Nat.cast_pos.2 (Nat.zero_lt_of_lt t.lt)

theorem share_nonneg (t : SlotTime) : 0 ≤ t.share :=
  div_nonneg (Nat.cast_nonneg _) (Nat.cast_nonneg _)

theorem share_le_one (t : SlotTime) : t.share ≤ 1 :=
  (div_le_one t.denominator_pos).2 (Nat.cast_le.2 t.lt.le)

theorem share_le_share (h : s.numerator * t.denominator ≤ t.numerator * s.denominator) :
    s.share ≤ t.share :=
  (div_le_div_iff₀ s.denominator_pos t.denominator_pos).2 (by exact_mod_cast h)

/-- The share as it is computed. -/
def roundedShare (t : SlotTime) : Float := Float.ofNat t.numerator / Float.ofNat t.denominator

theorem measure_eq (t : SlotTime) :
    (t.measure : Float) = Float.ofNat t.track.number + t.roundedShare := rfl

theorem Exact.isNearest_share (h : t.Exact) : IsNearest t.roundedShare t.share := by
  obtain ⟨hnum, hnum'⟩ := value_ofNat (t.lt.le.trans h)
  obtain ⟨hden, hden'⟩ := value_ofNat h
  have := isNearest_div hnum hden (ofNat_pos (Nat.zero_lt_of_lt t.lt) h)
  rwa [hnum', hden'] at this

theorem Exact.roundedShare_nonneg (h : t.Exact) : 0 ≤ t.roundedShare :=
  isNearest_zero.le h.isNearest_share t.share_nonneg

theorem Exact.isFinite_roundedShare (h : t.Exact) : t.roundedShare.isFinite = true := by
  have hone : IsNearest (Float.ofNat 1) 1 := isNearest_ofNat (by decide)
  exact isFinite_of_le h.roundedShare_nonneg (h.isNearest_share.le hone t.share_le_one) rfl

theorem Exact.value_roundedShare_le (h : t.Exact) : value t.roundedShare ≤ 1 := by
  have hone := value_ofNat (n := 1) (by decide)
  have hle := h.isNearest_share.le (isNearest_ofNat (n := 1) (by decide)) t.share_le_one
  have := value_le h.isFinite_roundedShare hone.1 hle
  rwa [hone.2] at this

section Bounded

variable (hs : s.Exact) (hs' : s.track.number < 1000) (ht : t.Exact) (ht' : t.track.number < 1000)

include hs hs'

theorem isNearest_measure : IsNearest s.measure (s.track.number + value s.roundedShare) := by
  obtain ⟨hfin, hvalue⟩ := value_ofNat (n := s.track.number) (by omega)
  have := isNearest_add hfin hs.isFinite_roundedShare
  rwa [hvalue] at this

/-- A slot is not after the track that follows its own. -/
theorem measure_le_ofNat {n : ℕ} (h : s.track.number < n) (hn : n ≤ 1000) :
    s.measure ≤ Float.ofNat n := by
  refine (isNearest_measure hs hs').le (isNearest_ofNat (by omega)) ?_
  have : (s.track.number : ℚ) + 1 ≤ n := by exact_mod_cast h
  linarith [hs.value_roundedShare_le]

theorem measure_nonneg : 0 ≤ (s.measure : Float) :=
  add_nonneg (ofNat_nonneg (by omega)) hs.roundedShare_nonneg

theorem isFinite_measure : (s.measure : Float).isFinite = true :=
  isFinite_of_le (measure_nonneg hs hs') (measure_le_ofNat hs hs' hs' le_rfl)
    (value_ofNat (n := 1000) (by decide)).1

include ht ht'

/-- The order of exact fractions survives rounding. -/
theorem measure_le_measure (h : (compare s t).isLE = true) : (s.measure : Float) ≤ t.measure := by
  have hdefined := (isNearest_measure ht ht').defined
  rcases Nat.lt_trichotomy s.track.number t.track.number with hlt | heq | hgt
  · exact le_trans (measure_le_ofNat hs hs' hlt ht'.le)
      (le_add_of_nonneg ht.roundedShare_nonneg hdefined)
  · have htrack : compare s.track t.track = .eq := Nat.compare_eq_eq.2 heq
    change ((compare s.track t.track).then _).isLE = true at h
    rw [htrack, Ordering.eq_then, Nat.isLE_compare] at h
    have hshare := hs.isNearest_share.le ht.isNearest_share (share_le_share h)
    rw [measure_eq, measure_eq, heq]
    rw [measure_eq] at hdefined
    have hdefined' := (isNearest_measure hs hs').defined
    rw [measure_eq, heq] at hdefined'
    exact add_le_add (le_refl_iff.2 (isNearest_ofNat (by omega)).defined) hshare hdefined' hdefined
  · have htrack : compare s.track t.track = .gt := Nat.compare_eq_gt.2 hgt
    change ((compare s.track t.track).then _).isLE = true at h
    rw [htrack] at h
    cases h

end Bounded

-- One part too large for an exact time is enough: the earlier fraction is rounded to one.
example :
    let s : SlotTime := ⟨⟨0⟩, 2 ^ 53, 2 ^ 53 + 1, by decide, by decide⟩
    let t : SlotTime := ⟨⟨0⟩, 2 ^ 53 + 1, 2 ^ 53 + 2, by decide, by decide⟩
    compare s t = .lt ∧ (t.measure : Float) < s.measure := by
  decide +kernel

theorem of?_eq_some {track : Track} {n d : ℕ} (h : of? track n d = some t) :
    t.track = track ∧ t.denominator ≤ d := by
  unfold of? at h
  split at h
  · cases h
    exact ⟨rfl, Nat.div_le_self _ _⟩
  · cases h

end SlotTime

/-! ## Slots of a chart -/

namespace Token

section Slots

variable {α : Type} [Scalar α]

/-- The objects of all messages. -/
def slots (measures : MeasureTimeline α) (ts : List (Spanned (Token α))) : List (Slot α) :=
  ts.flatMap fun t =>
    match t.content with
    | .message track _ payload => Slot.decode measures track payload.toList
    | _ => []

theorem mem_slots_iff {measures : MeasureTimeline α} {ts : List (Spanned (Token α))} {s : Slot α} :
    s ∈ slots measures ts ↔ ∃ (track : Track) (channel : Channel) (payload : String) (span : Span),
      ⟨.message track channel payload, span⟩ ∈ ts ∧ s ∈ Slot.decode measures track payload.toList := by
  rw [slots, List.mem_flatMap]
  constructor
  · rintro ⟨⟨content, span⟩, hmem, hs⟩
    split at hs
    · next track channel payload heq =>
      cases heq
      exact ⟨track, channel, payload, span, hmem, hs⟩
    · cases hs
  · rintro ⟨track, channel, payload, span, hmem, hs⟩
    exact ⟨_, hmem, hs⟩

end Slots

variable {measures : MeasureTimeline Float} {ts : List (Spanned (Token Float))} {s : Slot Float}

theorem beat_of_mem_slots (h : s ∈ slots measures ts) : s.beat = measures.beat s.time.measure := by
  obtain ⟨track, channel, payload, span, -, hs⟩ := mem_slots_iff.1 h
  obtain ⟨i, written⟩ := Slot.mem_decode.1 hs
  exact written.beat

theorem number_lt_of_mem_slots (hts : ∀ t ∈ ts, t.content.Bounded) (h : s ∈ slots measures ts) :
    s.time.track.number < 1000 := by
  obtain ⟨track, channel, payload, span, hmem, hs⟩ := mem_slots_iff.1 h
  obtain ⟨i, written⟩ := Slot.mem_decode.1 hs
  rw [(SlotTime.of?_eq_some written.of?_eq).1]
  exact (hts _ hmem).1

/-- In a text of no more than `2 ^ 54` characters all times are exact. -/
theorem exact_of_mem_slots {source : List Char} (hscan : scan source = .ok ts)
    (hlength : source.length ≤ 2 ^ 54) (h : s ∈ slots measures ts) : s.time.Exact := by
  obtain ⟨track, channel, payload, span, hmem, hs⟩ := mem_slots_iff.1 h
  obtain ⟨i, written⟩ := Slot.mem_decode.1 hs
  have hle := (SlotTime.of?_eq_some written.of?_eq).2
  have := length_payload_le hscan hmem
  unfold SlotTime.Exact
  omega

/-- The wave offset of a chart is finite. -/
theorem isFinite_waveOffset (ts : List (Spanned (Token Float))) :
    (songInfo ts).waveOffset.isFinite = true := by
  change ((last? waveOffset? ts).getD ((0 : Nat) : Float)).isFinite = true
  cases h : last? waveOffset? ts with
  | none => rfl
  | some v =>
    obtain ⟨t, -, ht⟩ := List.mem_filterMap.1 (List.mem_of_getLast? h)
    unfold waveOffset? at ht
    split at ht
    · next value _ =>
      cases ht
      exact value.finite
    · cases ht

end Token

/-! ## Accepted charts -/

namespace Chart

open Token

/-- The measures of changes are numbers of three digits. -/
theorem exists_measure_eq {kept : Kept Track (Finite Float)} (h : ∀ track ∈ kept, track.number < 1000)
    {c : MeasureChange Float} (hc : c ∈ (measureTimeline kept).knots.toList.map Knot.change) :
    ∃ n < 1000, c.measure = Float.ofNat n := by
  rw [changes_measureTimeline] at hc
  split at hc
  · rw [List.mem_singleton] at hc
    exact ⟨0, by decide, congrArg MeasureChange.measure hc⟩
  · obtain ⟨⟨track, beats⟩, hmem, rfl⟩ := List.mem_map.1 hc
    have hkept := Std.TreeMap.mem_toList_iff_getElem?_eq_some.1 hmem
    exact ⟨track.number, h _ (Std.TreeMap.getElem?_eq_some_iff.1 hkept).1, rfl⟩

theorem exists_position_eq {kept : Kept Track (Finite Float)} (h : ∀ track ∈ kept, track.number < 1000)
    {i : ℕ} (hi : i < (measureTimeline kept).knots.size) :
    ∃ n < 1000, (measureTimeline kept).knots[i].position = Float.ofNat n :=
  exists_measure_eq h (Timeline.change_mem hi)

theorem onward_measureTimeline {kept : Kept Track (Finite Float)} (h : ∀ track ∈ kept, track.number < 1000)
    (hrates : ∀ c ∈ (measureTimeline kept).knots.toList.map Knot.change, 0 ≤ c.beats.val) :
    (measureTimeline kept).Onward where
  toLinked := MeasureTimeline.linked_ofChanges _
  sorted i j hij hj := by
    rcases Nat.eq_or_lt_of_le hij with rfl | hlt
    · obtain ⟨n, hn, hposition⟩ := exists_position_eq h hj
      rw [hposition]
      exact le_refl_iff.2 (isNearest_ofNat (by omega)).defined
    · exact le_of_lt (Timeline.pairwise_changes (pairwise_measureTimeline h) hlt hj)
  nonneg i hi := by
    obtain ⟨n, hn, hposition⟩ := exists_position_eq h hi
    rw [hposition]
    exact ofNat_nonneg (by omega)
  finite i hi := by
    obtain ⟨n, hn, hposition⟩ := exists_position_eq h hi
    rw [hposition]
    exact (value_ofNat (by omega)).1
  rates i hi := hrates _ (Timeline.change_mem hi)

namespace MadeOf

variable {prompter : Prompter Float} {ts : List (Spanned (Token Float))} {r : Rulings Float}
  {defs : List (Definition Float)} {chart : Chart Float}

theorem onward (m : MadeOf prompter ts r defs chart) (hts : ∀ t ∈ ts, t.content.Bounded)
    (hrates : ∀ a ∈ chart.song.measureAnchors, 0 ≤ a.beats.val) : chart.song.measures.Onward := by
  have hchanges : ∀ c ∈ chart.song.measures.knots.toList.map Knot.change, 0 ≤ c.beats.val := by
    rw [← Song.map_change_measureAnchors]
    exact List.forall_mem_map.2 hrates
  rw [m.measures] at hchanges ⊢
  exact onward_measureTimeline (fun track htrack => m.number_lt hts htrack) hchanges

/-- A slot that is not later on the chart has no later beat. -/
theorem beat_le_beat (m : MadeOf prompter ts r defs chart) (hts : ∀ t ∈ ts, t.content.Bounded)
    (hrates : ∀ a ∈ chart.song.measureAnchors, 0 ≤ a.beats.val) {s t : Slot Float}
    (hs : s ∈ slots chart.song.measures ts) (ht : t ∈ slots chart.song.measures ts)
    (hexact : s.time.Exact) (hexact' : t.time.Exact) (h : (compare s.time t.time).isLE = true) :
    s.beat ≤ t.beat := by
  have hnumber := number_lt_of_mem_slots hts hs
  have hnumber' := number_lt_of_mem_slots hts ht
  rw [beat_of_mem_slots hs, beat_of_mem_slots ht]
  exact (m.onward hts hrates).beat_le_beat (SlotTime.measure_nonneg hexact hnumber)
    (SlotTime.measure_le_measure hexact hnumber hexact' hnumber' h)
    (SlotTime.isFinite_measure hexact' hnumber')

end MadeOf

/-- What holds of the tokens and the chart of a text can be computed. -/
theorem exists_read_of_check (prompter : Prompter Float) (source : List Char)
    (check : List (Spanned (Token Float)) → Chart Float → Bool)
    (h : ((scan source).toOption.any fun ts =>
      (ofTokens prompter ts).result.toOption.any (check ts)) = true) :
    ∃ ts chart, scan source = .ok ts ∧ (read prompter source).result = .ok chart ∧
      check ts chart = true := by
  cases hscan : scan source with
  | error e =>
    rw [hscan] at h
    cases h
  | ok ts =>
    rw [hscan] at h
    obtain ⟨chart, hresult, hcheck⟩ := exists_ofTokens_of_check prompter ts (check ts) h
    exact ⟨ts, chart, rfl, read_eq_ok_iff.2 ⟨ts, hscan, hresult⟩, hcheck⟩

/-- What is not later on the chart is not later in the song: neither its beat nor its seconds are. -/
theorem read_chronological (prompter : Prompter Float) (source : List Char)
    {ts : List (Spanned (Token Float))} (hscan : scan source = .ok ts) {chart : Chart Float}
    (h : (read prompter source).result = .ok chart)
    (hrates : ∀ a ∈ chart.song.measureAnchors, 0 ≤ a.beats.val)
    (hdefined : ∀ k ∈ chart.song.tempo.knots, k.value.isNaN = false) :
    (source.length ≤ 2 ^ 54 → ∀ s ∈ slots chart.song.measures ts, s.time.Exact) ∧
      ∀ s ∈ slots chart.song.measures ts, ∀ t ∈ slots chart.song.measures ts,
        s.time.Exact → t.time.Exact → (compare s.time t.time).isLE = true →
          s.beat ≤ t.beat ∧
            ((chart.song.tempo.seconds s.beat).isNaN = false →
              (chart.song.tempo.seconds t.beat).isNaN = false →
                chart.song.tempo.seconds s.beat ≤ chart.song.tempo.seconds t.beat) := by
  obtain ⟨ts', hscan', hok⟩ := read_eq_ok_iff.1 h
  obtain rfl : ts = ts' := Except.ok.inj (hscan.symm.trans hscan')
  obtain ⟨r, defs, m⟩ := exists_madeOf hok
  have hts (t) (ht : t ∈ ts) : t.content.Bounded := bounded_of_scan hscan ht
  refine ⟨fun hlength s hs => exact_of_mem_slots hscan hlength hs, ?_⟩
  intro s hs t ht hexact hexact' hle
  have hbeat := m.beat_le_beat hts hrates hs ht hexact hexact' hle
  refine ⟨hbeat, fun hseconds hseconds' => ?_⟩
  exact BpmTimeline.seconds_le_seconds m.tempo (fun i hi => hdefined _ (Array.getElem_mem hi))
    (isFinite_waveOffset ts) hbeat hseconds hseconds'

/-- Thirds and halves of a measure of three beats, with a change of tempo between them. -/
theorem read_chronological_of_thirds :
    ∃ ts chart, scan "#BPM01: 90\n#BPM02: 170\n#00002: 3\n#00008:0102\n#00010:111111".toList = .ok ts ∧
      (read (Prompter.always .halt)
        "#BPM01: 90\n#BPM02: 170\n#00002: 3\n#00008:0102\n#00010:111111".toList).result = .ok chart ∧
      ∃ s ∈ slots chart.song.measures ts, ∃ t ∈ slots chart.song.measures ts, s.time ≠ t.time ∧
        s.beat ≤ t.beat ∧ chart.song.tempo.seconds s.beat ≤ chart.song.tempo.seconds t.beat := by
  obtain ⟨ts, chart, hscan, hok, hcheck⟩ := exists_read_of_check (Prompter.always .halt)
    "#BPM01: 90\n#BPM02: 170\n#00002: 3\n#00008:0102\n#00010:111111".toList
    (fun ts chart =>
      chart.song.measureAnchors.all (fun a => decide (0 ≤ a.beats.val)) &&
      chart.song.tempo.knots.all (fun k => !k.value.isNaN) &&
      (slots chart.song.measures ts).any fun s => (slots chart.song.measures ts).any fun t =>
        decide (s.time ≠ t.time) && (compare s.time t.time).isLE &&
          !(chart.song.tempo.seconds s.beat).isNaN && !(chart.song.tempo.seconds t.beat).isNaN)
    (by
      unfold ofTokens resolve assembleSong BpmTimeline.ofChanges?
      rw [scan_eq_mapM, BpmTimeline.sort_eq_insertionSort]
      decide +kernel)
  simp only [Bool.and_eq_true, List.all_eq_true, Array.all_eq_true', List.any_eq_true,
    decide_eq_true_iff, Bool.not_eq_true'] at hcheck
  obtain ⟨⟨hrates, hdefined⟩, s, hs, t, ht, ⟨⟨hne, hle⟩, hseconds⟩, hseconds'⟩ := hcheck
  obtain ⟨hexact, hmono⟩ := read_chronological _ _ hscan hok hrates hdefined
  have hbeats := hmono s hs t ht (hexact (by decide) s hs) (hexact (by decide) t ht) hle
  exact ⟨ts, chart, hscan, hok, s, hs, t, ht, hne, hbeats.1, hbeats.2 hseconds hseconds'⟩

end Chart

end RhythmChart
