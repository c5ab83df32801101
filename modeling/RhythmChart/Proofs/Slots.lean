import Mathlib.Data.Fintype.Prod
import Mathlib.Data.List.Forall2
import RhythmChart.Proofs.Text.LetterCase
import RhythmChart.Slot

/-!
# Objects of a payload

Decoding goes through the characters of a payload two at a time.  `decode_eq_filterMap_range` turns this into
a description by numbers: of the slots that the payload has room for, the slot `i` is read from the characters
number `2 * i` and `2 * i + 1`, and from nothing else.  `sounding` lists the slots that write an object, and
`WrittenAt` says what is written there; `mem_decode`, `map_digits_decode` and `map_decode` read the objects, their
digits and their names off the characters.
-/

namespace RhythmChart

variable {α : Type} [Scalar α]

namespace SlotTime

/-- The time of the slot `i` of `n`: the fraction `i / n` of the track, in lowest terms. -/
def ofSlot (track : Track) {n : Nat} (i : Fin n) : SlotTime where
  track := track
  numerator := i.val / i.val.gcd n
  denominator := n / i.val.gcd n
  lt := Nat.div_lt_div_of_lt_of_dvd (Nat.gcd_dvd_right i.val n) i.isLt
  coprime := Nat.gcd_div_gcd_div_gcd_of_pos_right (Nat.zero_lt_of_lt i.isLt)

theorem of?_eq_some_iff {track : Track} {i n : Nat} {t : SlotTime} :
    of? track i n = some t ↔ ∃ h : i < n, t = ofSlot track ⟨i, h⟩ := by
  unfold of?
  split
  · next h =>
    rw [Option.some.injEq]
    exact ⟨fun heq => ⟨h, heq.symm⟩, fun ⟨_, heq⟩ => heq.symm⟩
  · next h => exact iff_of_false (by simp) fun ⟨hlt, _⟩ => h hlt

/-- The fraction in lowest terms is in its track, and has the proportion that it was made of. -/
theorem eq_and_cross_of_of? {track : Track} {i n : Nat} {t : SlotTime} (h : of? track i n = some t) :
    t.track = track ∧ t.numerator * n = i * t.denominator := by
  obtain ⟨-, rfl⟩ := of?_eq_some_iff.1 h
  refine ⟨rfl, ?_⟩
  change i / i.gcd n * n = i * (n / i.gcd n)
  rw [Nat.div_mul_right_comm (Nat.gcd_dvd_left i n), Nat.mul_div_assoc i (Nat.gcd_dvd_right i n)]

/-- A later slot of a message has a later time. -/
theorem compare_of_of? {track : Track} {i j n : Nat} {s t : SlotTime} (hs : of? track i n = some s)
    (ht : of? track j n = some t) (hij : i < j) : compare s t = .lt := by
  obtain ⟨htrack, hcross⟩ := eq_and_cross_of_of? hs
  obtain ⟨htrack', hcross'⟩ := eq_and_cross_of_of? ht
  have hlt : s.numerator * t.denominator < t.numerator * s.denominator := by
    have hpos : 0 < s.denominator * t.denominator :=
      Nat.mul_pos (Nat.zero_lt_of_lt s.lt) (Nat.zero_lt_of_lt t.lt)
    refine Nat.lt_of_mul_lt_mul_right (a := n) ?_
    calc s.numerator * t.denominator * n = i * (s.denominator * t.denominator) := by
          rw [Nat.mul_right_comm, hcross, Nat.mul_assoc]
      _ < j * (s.denominator * t.denominator) := Nat.mul_lt_mul_of_pos_right hij hpos
      _ = t.numerator * s.denominator * n := by
          rw [Nat.mul_right_comm, hcross', Nat.mul_comm s.denominator, Nat.mul_assoc]
  change (compare s.track t.track).then _ = .lt
  rw [htrack, htrack', Std.ReflOrd.compare_self, Ordering.eq_then]
  exact Nat.compare_eq_lt.2 hlt

end SlotTime

namespace Slot

/-! ## Characters of a slot -/

/-- The characters of the digits, in upper case. -/
def numerals : List Char := "0123456789ABCDEFGHIJKLMNOPQRSTUVWXYZ".toList

/-- The digit that the character with some number writes: its place among the numerals, in either case. -/
def digitAt? (payload : List Char) (i : Nat) : Option Digit :=
  payload[i]?.bind fun c => (List.finRange 36).find? fun d => numerals[d.val]? = some c.toUpper

/-- The two characters of a slot write digits that are not both zero. -/
def Sounds (payload : List Char) (i : Nat) (d : Digit × Digit) : Prop :=
  digitAt? payload (2 * i) = some d.1 ∧ digitAt? payload (2 * i + 1) = some d.2 ∧
    ¬ (d.1.val = 0 ∧ d.2.val = 0)

instance (payload : List Char) (i : Nat) : DecidablePred (Sounds payload i) :=
  fun _ => inferInstanceAs (Decidable (_ ∧ _))

/-- The numbers of the slots that write an object, out of those that a payload has room for. -/
def sounding (payload : List Char) : List Nat :=
  (List.range (payload.length / 2)).filter fun i => decide (∃ d, Sounds payload i d)

/-- The digits of a slot, by its number.  A silent slot has none. -/
def digitsAt? (payload : List Char) (i : Nat) : Option (Digit × Digit) := do
  let high ← digitAt? payload (2 * i)
  let low ← digitAt? payload (2 * i + 1)
  if high.val = 0 ∧ low.val = 0 then none else return (high, low)

theorem number_lt (high low : Digit) : 36 * high.val + low.val < 1296 := by omega

/-- The name that the digits of a slot write. -/
def idAt? (payload : List Char) (i : Nat) : Option BpmId :=
  (digitsAt? payload i).map fun (high, low) => ⟨⟨36 * high.val + low.val, number_lt high low⟩⟩

/-- The names that a payload writes, each with the time of its slot. -/
def names (track : Track) (payload : List Char) : List (BpmId × SlotTime) :=
  (List.finRange (payload.length / 2)).filterMap fun (i : Fin (payload.length / 2)) =>
    (idAt? payload i).map fun id => (id, SlotTime.ofSlot track i)

theorem find?_numerals (c : Char) :
    ((List.finRange 36).find? fun d => numerals[d.val]? = some c.toUpper) = Digit.ofChar? c := by
  have hnumeral (d : Digit) : numerals[d.val]? = some c.toUpper ↔ Digit.ofChar? c = some d := by
    have htable : numerals[d.val]? = some d.toChar := by
      revert d
      decide
    rw [htable, Option.some.injEq, Digit.ofChar?_eq_some_iff, eq_comm]
  simp only [hnumeral]
  cases Digit.ofChar? c with
  | none => exact List.find?_eq_none.2 (by simp)
  | some d =>
    revert d
    decide

variable {payload : List Char} {i : Nat}

theorem digitAt?_eq (payload : List Char) (i : Nat) : digitAt? payload i = payload[i]?.bind Digit.ofChar? := by
  rw [digitAt?, funext find?_numerals]

theorem digitsAt?_eq_some_iff {d : Digit × Digit} : digitsAt? payload i = some d ↔ Sounds payload i d := by
  obtain ⟨high, low⟩ := d
  unfold digitsAt? Sounds
  cases digitAt? payload (2 * i) with
  | none => simp
  | some x =>
    cases digitAt? payload (2 * i + 1) with
    | none => simp
    | some y =>
      simp only [Option.bind_eq_bind, Option.bind_some, Option.some.injEq]
      split
      · next hzero =>
        refine iff_of_false (by simp) ?_
        rintro ⟨rfl, rfl, hnot⟩
        exact hnot hzero
      · next hzero =>
        constructor
        · intro h
          cases h
          exact ⟨rfl, rfl, hzero⟩
        · rintro ⟨rfl, rfl, -⟩
          rfl

/-! ## Pairs of characters by number -/

theorem length_pairs (s : List Char) : (pairs s).length = s.length / 2 := by
  fun_induction pairs s with
  | case1 a b s ih =>
    rw [List.length_cons, ih, List.length_cons, List.length_cons]
    omega
  | case2 s h =>
    match s, h with
    | [], _ => rfl
    | [_], _ => simp
    | a :: b :: s, h => exact absurd rfl (h a b s)

theorem getElem?_pairs (payload : List Char) (i : Nat) : (pairs payload)[i]? =
    payload[2 * i]?.bind fun a => payload[2 * i + 1]?.map fun b => (a, b) := by
  fun_induction pairs payload generalizing i with
  | case1 a b s ih =>
    cases i with
    | zero => rfl
    | succ i => exact ih i
  | case2 s h =>
    cases s with
    | nil => rfl
    | cons a s =>
      cases s with
      | nil => cases i <;> rfl
      | cons b s => exact absurd rfl (h a b s)

/-- What the pair with some number writes is what the two characters of the slot write. -/
theorem bind_digits?_pairs (payload : List Char) (i : Nat) :
    ((pairs payload)[i]?.bind fun u => digits? u.1 u.2) = digitsAt? payload i := by
  rw [getElem?_pairs]
  unfold digitsAt? digits?
  rw [digitAt?_eq, digitAt?_eq]
  cases payload[2 * i]? with
  | none => rfl
  | some a =>
    cases payload[2 * i + 1]? with
    | none => simp
    | some b => simp only [Option.bind_some, Option.map_some, Fin.ext_iff, Fin.val_zero]

/-! ## Objects by the numbers of their slots -/

/-- The object of a slot, by its number. -/
def at? (measures : MeasureTimeline α) (track : Track) (payload : List Char) (i : Nat) : Option (Slot α) := do
  let (high, low) ← digitsAt? payload i
  let time ← SlotTime.of? track i (payload.length / 2)
  return ⟨time, measures.beat time.measure, high, low⟩

theorem decode_eq_filterMap_range (measures : MeasureTimeline α) (track : Track) (payload : List Char) :
    decode measures track payload =
      (List.range (payload.length / 2)).filterMap (at? measures track payload) := by
  have hrange : (pairs payload).zipIdx.map Prod.snd = List.range (payload.length / 2) := by
    rw [List.zipIdx_map_snd, length_pairs, List.range_eq_range']
  rw [decode, ← hrange, List.filterMap_map]
  refine List.filterMap_congr fun u hu => ?_
  have hdigits := bind_digits?_pairs payload u.2
  rw [List.mem_zipIdx_iff_getElem?.1 hu] at hdigits
  rw [Function.comp_apply, at?, ← hdigits]
  rfl

/-- The object is that of the slot `i`: the digits of the slot, at its time and at the beat of this time.  The
fraction of the time counts as a part of its track. -/
structure WrittenAt (measures : MeasureTimeline α) (track : Track) (payload : List Char) (i : Nat)
    (s : Slot α) : Prop where
  sounds : Sounds payload i (s.high, s.low)
  time : ∃ h : i < payload.length / 2, s.time = SlotTime.ofSlot track ⟨i, h⟩
  beat : s.beat = measures.beat
    ((s.time.track.number : α) + (s.time.numerator : α) / (s.time.denominator : α))

variable {measures : MeasureTimeline α} {track : Track}

theorem at?_eq_some_iff {s : Slot α} :
    at? measures track payload i = some s ↔ WrittenAt measures track payload i s := by
  obtain ⟨time, beat, high, low⟩ := s
  unfold at?
  constructor
  · intro h
    obtain ⟨⟨h', l'⟩, hdigits, h⟩ := Option.bind_eq_some_iff.1 h
    obtain ⟨t, htime, h⟩ := Option.bind_eq_some_iff.1 h
    cases h
    exact ⟨digitsAt?_eq_some_iff.1 hdigits, SlotTime.of?_eq_some_iff.1 htime, rfl⟩
  · rintro ⟨hsounds, htime, hbeat⟩
    dsimp only at hsounds htime hbeat
    rw [digitsAt?_eq_some_iff.2 hsounds, SlotTime.of?_eq_some_iff.2 htime, hbeat]
    rfl

theorem WrittenAt.of?_eq {s : Slot α} (h : WrittenAt measures track payload i s) :
    SlotTime.of? track i (payload.length / 2) = some s.time :=
  SlotTime.of?_eq_some_iff.2 h.time

theorem mem_decode {s : Slot α} :
    s ∈ decode measures track payload ↔ ∃ i, WrittenAt measures track payload i s := by
  rw [decode_eq_filterMap_range, List.mem_filterMap]
  constructor
  · rintro ⟨i, -, hs⟩
    exact ⟨i, at?_eq_some_iff.1 hs⟩
  · rintro ⟨i, written⟩
    exact ⟨i, List.mem_range.2 written.time.1, at?_eq_some_iff.2 written⟩

/-- The objects of a message come in the order of their times. -/
theorem pairwise_decode (measures : MeasureTimeline α) (track : Track) (payload : List Char) :
    (decode measures track payload).Pairwise fun s t => compare s.time t.time = .lt := by
  rw [decode_eq_filterMap_range, List.pairwise_filterMap]
  refine List.pairwise_lt_range.imp fun {i j} hlt s hs t ht => ?_
  exact SlotTime.compare_of_of? (at?_eq_some_iff.1 hs).of?_eq (at?_eq_some_iff.1 ht).of?_eq hlt

/-- A slot that the payload has room for is read as far as its characters write digits. -/
theorem map_digits_at? (measures : MeasureTimeline α) (track : Track) (h : i < payload.length / 2) :
    (at? measures track payload i).map (fun s => (s.high, s.low)) = digitsAt? payload i := by
  unfold at?
  rw [SlotTime.of?_eq_some_iff.2 ⟨h, rfl⟩]
  cases digitsAt? payload i <;> rfl

/-- Every slot that has digits gives an object: its time is never rejected. -/
theorem isSome_at? (measures : MeasureTimeline α) (track : Track) (h : i < payload.length / 2) :
    (at? measures track payload i).isSome = decide (∃ d, Sounds payload i d) := by
  rw [← Option.isSome_map, map_digits_at? measures track h, Bool.eq_iff_iff, Option.isSome_iff_exists,
    decide_eq_true_iff]
  exact exists_congr fun d => digitsAt?_eq_some_iff

theorem forall₂_filterMap_filter {β γ : Type} {f : β → Option γ} {p : β → Bool} {R : γ → β → Prop}
    {xs : List β} (h : ∀ x ∈ xs, (f x).isSome = p x) (hR : ∀ x ∈ xs, ∀ y, f x = some y → R y x) :
    List.Forall₂ R (xs.filterMap f) (xs.filter p) := by
  induction xs with
  | nil => exact .nil
  | cons x xs ih =>
    have hrest := ih (fun y hy => h y (List.mem_cons_of_mem x hy))
      fun y hy => hR y (List.mem_cons_of_mem x hy)
    have hx := h x List.mem_cons_self
    cases hf : f x with
    | none =>
      rw [hf] at hx
      rwa [List.filterMap_cons_none hf, List.filter_cons_of_neg (by simp [← hx])]
    | some y =>
      rw [hf] at hx
      rw [List.filterMap_cons_some hf, List.filter_cons_of_pos hx.symm]
      exact .cons (hR x List.mem_cons_self y hf) hrest

/-- The objects of a payload are those of the slots that write one, one from each in order. -/
theorem forall₂_decode (measures : MeasureTimeline α) (track : Track) (payload : List Char) :
    List.Forall₂ (fun s i => WrittenAt measures track payload i s) (decode measures track payload)
      (sounding payload) := by
  rw [decode_eq_filterMap_range]
  exact forall₂_filterMap_filter (fun i hi => isSome_at? measures track (List.mem_range.1 hi))
    fun i _ s => at?_eq_some_iff.1

/-- The digits of the objects are those that the characters write. -/
theorem map_digits_decode (measures : MeasureTimeline α) (track : Track) (payload : List Char) :
    (decode measures track payload).map (fun s => (s.high, s.low)) =
      (List.range (payload.length / 2)).filterMap (digitsAt? payload) := by
  rw [decode_eq_filterMap_range, List.map_filterMap]
  exact List.filterMap_congr fun i hi => map_digits_at? measures track (List.mem_range.1 hi)

/-- The names of the objects are those that the characters write. -/
theorem map_bpmId_decode (measures : MeasureTimeline α) (track : Track) (payload : List Char) :
    (decode measures track payload).map bpmId =
      (List.range (payload.length / 2)).filterMap (idAt? payload) := by
  have hdigits := congrArg (List.map fun d : Digit × Digit => BpmId.ofDigits d.1 d.2)
    (map_digits_decode measures track payload)
  rwa [List.map_map, List.map_filterMap] at hdigits

theorem exists_mem_decode_iff (measures : MeasureTimeline α) (track : Track) (payload : List Char)
    (id : BpmId) : (∃ s ∈ decode measures track payload, s.bpmId = id) ↔
      ∃ i < payload.length / 2, idAt? payload i = some id := by
  rw [← List.mem_map, map_bpmId_decode, List.mem_filterMap]
  simp only [List.mem_range]

/-- The objects of a payload are its names, each at the beat of its time. -/
theorem map_decode (measures : MeasureTimeline α) (track : Track) (payload : List Char) :
    ((decode measures track payload).map fun s => (s.bpmId, s.time, s.beat)) =
      (names track payload).map fun (id, time) => (id, time, measures.beat time.measure) := by
  rw [decode_eq_filterMap_range, names, List.map_filterMap, List.map_filterMap, ← List.map_coe_finRange_eq_range,
    List.filterMap_map]
  refine List.filterMap_congr fun i _ => ?_
  rw [Function.comp_apply, at?, SlotTime.of?_eq_some_iff.2 ⟨i.isLt, rfl⟩, idAt?]
  cases digitsAt? payload i <;> rfl

end Slot

end RhythmChart
