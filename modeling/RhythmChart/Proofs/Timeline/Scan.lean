import RhythmChart.Proofs.Timeline.Rounded

/-!
# Searches and scans

A timeline is searched by halving, once for the knots before a position and once for those at or before
it.  `Timeline.scanAt` and `BpmTimeline.scanBpm` say what is looked for by going through all knots, and
`searches_eq_scans` says that the searches find it, also where knots share a position.

The first of the knots at one position gives the value there, but the others have that value too: over no
distance no rate changes it (`BpmTimeline.seconds_position`).
-/

namespace RhythmChart

open Binary64

/-- The last element that has a property is the one after which none has it. -/
theorem getLast?_filter_eq_some {σ : Type} {xs : Array σ} {p : σ → Bool} {i : Nat} (hi : i < xs.size)
    (h : p xs[i] = true) (hlast : ∀ j (_ : i < j) (_ : j < xs.size), ¬ p xs[j] = true) :
    (xs.toList.filter p).getLast? = some xs[i] := by
  have hafter : (xs.toList.drop (i + 1)).filter p = [] := by
    refine List.filter_eq_nil_iff.2 fun x hx => ?_
    obtain ⟨j, hj, rfl⟩ := List.mem_drop_iff_getElem.1 hx
    rw [Array.length_toList] at hj
    exact hlast (i + 1 + j) (by omega) (by omega)
  have hsplit : xs.toList = xs.toList.take i ++ xs[i] :: xs.toList.drop (i + 1) := by
    conv_lhs => rw [← List.take_append_drop i xs.toList, List.drop_eq_getElem_cons (by simpa using hi)]
    rfl
  calc (xs.toList.filter p).getLast?
      = ((xs.toList.take i).filter p ++ [xs[i]]).getLast? := by
        conv_lhs => rw [hsplit, List.filter_append, List.filter_cons_of_pos h, hafter]
    _ = some xs[i] := List.getLast?_concat

namespace Timeline

variable {ρ : Type} [Rate ρ Float] {t : Timeline ρ Float} {origin p v : Float}

/-! ## Going through all knots -/

/-- The value of the first knot on a position.  If none is on it, where the last knot before it leads to,
and if none is before it either, where the first rate leads to from the origin. -/
def scanAt (t : Timeline ρ Float) (origin p : Float) : Float :=
  match t.knots.toList.find? fun k => k.position == p with
  | some k => k.value
  | none =>
    match (t.knots.toList.filter fun k => decide (k.position < p)).getLast? with
    | some k => k.extend p
    | none => Rate.advance t.first.change origin p

theorem find?_eq_none (h : ∀ i (_ : i < t.knots.size), ¬ (t.knots[i].position == p) = true) :
    (t.knots.toList.find? fun k => k.position == p) = none := by
  refine List.find?_eq_none.2 fun k hk => ?_
  obtain ⟨i, hi, rfl⟩ := List.getElem_of_mem hk
  exact h i (by simpa using hi)

/-- Whichever knot gives a value, going through all of them finds it. -/
theorem Sorted.eq_scanAt (h : t.Sorted) (hv : t.Branch origin p v) : v = t.scanAt origin p := by
  unfold scanAt
  cases hv with
  | before lt =>
    have hall (i : Nat) (hi : i < t.knots.size) : p < t.knots[i].position :=
      lt_of_lt_of_le lt (h 0 i (Nat.zero_le i) hi)
    have hnone : (t.knots.toList.filter fun k => decide (k.position < p)) = [] := by
      refine List.filter_eq_nil_iff.2 fun k hk => ?_
      obtain ⟨i, hi, rfl⟩ := List.getElem_of_mem hk
      exact fun hlt => not_lt_of_le (le_of_lt (hall i (by simpa using hi))) (of_decide_eq_true hlt)
    rw [find?_eq_none fun i hi heq => not_lt_of_le (beq_iff_le.1 heq).1 (hall i hi), hnone]
    rfl
  | on i hi eq first =>
    have hfind : (t.knots.toList.find? fun k => k.position == p) = some t.knots[i] := by
      refine List.find?_eq_some_iff_getElem.2 ⟨eq, i, by simpa using hi, rfl, fun j hj => ?_⟩
      have hne : ¬ (t.knots[j].position == p) = true := fun heq =>
        not_lt_of_le (beq_iff_le.1 heq).2 (first j hj)
      simpa using hne
    rw [hfind]
  | after i hi lt last =>
    have hoff (j : Nat) (hj : j < t.knots.size) : ¬ (t.knots[j].position == p) = true := by
      intro heq
      obtain ⟨hle, hge⟩ := beq_iff_le.1 heq
      rcases Nat.lt_or_ge i j with hij | hji
      · exact not_lt_of_le hle (last j hij hj)
      · exact not_lt_of_le hge (lt_of_le_of_lt (h j i hji hi) lt)
    have hlast : (t.knots.toList.filter fun k => decide (k.position < p)).getLast? = some t.knots[i] := by
      refine getLast?_filter_eq_some hi (decide_eq_true lt) fun j hij hj hlt => ?_
      exact not_lt_of_le (le_of_lt (last j hij hj)) (of_decide_eq_true hlt)
    rw [find?_eq_none hoff, hlast]

omit [Rate ρ Float] in
/-- The knot before an answer is the last one that the search is for, or the first knot. -/
theorem before_partitionPoint {q : Knot ρ Float → Bool} (hq : Partitioned t.knots q) :
    t.before (partitionPoint t.knots q) (partitionPoint_le ..) =
      (t.knots.toList.filter q).getLast?.getD t.first := by
  have hle := partitionPoint_le t.knots q
  rcases Nat.eq_zero_or_pos (partitionPoint t.knots q) with hzero | hpos
  · have hnil := filter_eq_take hq
    rw [hzero, List.take_zero] at hnil
    rw [hnil]
    simp only [before, hzero]
    rfl
  · have hi : partitionPoint t.knots q - 1 < t.knots.size := by omega
    have hpass : q t.knots[partitionPoint t.knots q - 1] = true :=
      (lt_partitionPoint_iff hq _ hi).1 (by omega)
    have hlast : (t.knots.toList.filter q).getLast? = some t.knots[partitionPoint t.knots q - 1] := by
      refine getLast?_filter_eq_some hi hpass fun j hij hj hpass' => ?_
      have := (lt_partitionPoint_iff hq j hj).2 hpass'
      omega
    rw [hlast]
    rfl

end Timeline

namespace BpmTimeline

variable {cs : List (BpmChange Float)} {waveOffset : Float} {t : BpmTimeline Float} {i : Nat}

/-- The beats per minute of the last change at or before a beat, or of the first one. -/
def scanBpm (t : BpmTimeline Float) (beat : Float) : Positive Float :=
  ((t.knots.toList.filter fun k => decide (k.position ≤ beat)).getLast?.getD t.first).change.bpm

theorem bpmAt_eq_scanBpm (h : t.Sorted) (beat : Float) : t.bpmAt beat = t.scanBpm beat := by
  unfold bpmAt scanBpm
  rw [Timeline.before_partitionPoint fun j k hjk hk hle => ?_]
  exact decide_eq_true (le_trans (h j k hjk hk) (of_decide_eq_true hle))

/-! ## Seconds of the changes themselves -/

section Defined

variable (h : ofChanges? cs waveOffset = some t) (hi : i < t.knots.size)
  (hdef : t.knots[i].value.isNaN = false)

include h hdef

/-- The first change on the beat of a change. -/
theorem exists_first_on : ∃ n, ∃ _ : n < t.knots.size, n ≤ i ∧
    t.knots[i].position ≤ t.knots[n].position ∧
      ∀ m (_ : m < t.knots.size), m < n → t.knots[m].position < t.knots[i].position := by
  classical
  have hself := position_le_position h hi hdef (Nat.le_refl i) (Nat.le_refl i)
  have hexists : ∃ n, ∃ _ : n < t.knots.size, t.knots[i].position ≤ t.knots[n].position := ⟨i, hi, hself⟩
  have hni := Nat.find_min' hexists ⟨hi, hself⟩
  obtain ⟨hn, hle⟩ := Nat.find_spec hexists
  refine ⟨Nat.find hexists, hn, hni, hle, fun m hm hmn => ?_⟩
  have hdef' := (le_iff.1 (position_le_position h hi hdef (Nat.le_of_lt hmn) hni)).1
  by_contra hnlt
  exact Nat.find_min hexists hmn ⟨hm, (not_lt_iff hdef' (le_iff.1 hself).1).1 hnlt⟩

/-- The seconds of the beat of a change are those of the change. -/
theorem seconds_position (hfin : t.knots[i].position.isFinite = true) :
    (t.seconds t.knots[i].position == t.knots[i].value) = true := by
  obtain ⟨n, hn, hni, hle, hbefore⟩ := exists_first_on h hi hdef
  have hge := position_le_position h hi hdef hni (Nat.le_refl i)
  have hvalue : t.seconds t.knots[i].position = t.knots[n].value :=
    Timeline.valueAt_eq_value hn (beq_iff_le.2 ⟨hge, hle⟩) hbefore fun j => not_position_lt h hle
  rw [hvalue]
  exact beq_symm (value_beq_value h hi hdef hfin hni hle)

end Defined

/-! ## The searches find what going through all knots finds -/

/-- A value is that of the first knot on the position, else it comes from the last knot before it, and else
from the origin; the beats per minute are those of the last change at or before the beat.  So each change of
a tempo is where the tempo takes its beat, also if it shares the beat with others. -/
theorem searches_eq_scans :
    (∀ (ρ : Type) [Rate ρ Float] (t : Timeline ρ Float), t.Sorted → ∀ origin p : Float, p.isNaN = false →
      t.valueAt origin p = t.scanAt origin p) ∧
    (∀ t : BpmTimeline Float, t.Sorted → ∀ beat : Float, t.bpmAt beat = t.scanBpm beat) ∧
    ∀ (cs : List (BpmChange Float)) (waveOffset : Float) (t : BpmTimeline Float),
      ofChanges? cs waveOffset = some t → ∀ k ∈ t.knots, k.position.isFinite = true →
        k.value.isNaN = false → (t.seconds k.position == k.value) = true := by
  refine ⟨fun ρ _ t h origin p hp => h.eq_scanAt (h.branch_valueAt hp),
    fun t h beat => bpmAt_eq_scanBpm h beat, fun cs waveOffset t h k hk hfin hdef => ?_⟩
  obtain ⟨i, hi, rfl⟩ := Array.mem_iff_getElem.1 hk
  exact seconds_position h hi hdef hfin

/-- Two changes on the two zeros and two on the beat four.  The first of the two gives the seconds of its
beat, the second one those of the beats after it. -/
theorem searches_eq_scans_of_shared :
    ∃ t : BpmTimeline Float,
      ofChanges? [⟨⟨1⟩, ⟨⟨60, rfl⟩, by decide⟩, 0⟩, ⟨⟨2⟩, ⟨⟨120, rfl⟩, by decide⟩, 4⟩,
        ⟨⟨3⟩, ⟨⟨30, rfl⟩, by decide⟩, -0⟩, ⟨⟨4⟩, ⟨⟨240, rfl⟩, by decide⟩, 4⟩] 0 = some t ∧
      t.Sorted ∧ t.knots.toList.map Knot.position = [-0, 0, 4, 4] ∧
      (t.bpmAt (-0)).val = 60 ∧ t.seconds 8 = 5 ∧
      ∀ k ∈ t.knots, (t.seconds k.position == k.value) = true := by
  have h : ((ofChanges? [⟨⟨1⟩, ⟨⟨60, rfl⟩, by decide⟩, 0⟩, ⟨⟨2⟩, ⟨⟨120, rfl⟩, by decide⟩, 4⟩,
        ⟨⟨3⟩, ⟨⟨30, rfl⟩, by decide⟩, -0⟩, ⟨⟨4⟩, ⟨⟨240, rfl⟩, by decide⟩, 4⟩] 0).any fun t =>
      t.knots.all (fun k => k.position.isFinite && !k.value.isNaN) &&
      decide (t.knots.toList.map Knot.position = [-0, 0, 4, 4]) &&
      decide ((t.scanBpm (-0)).val = 60) && decide (t.scanAt (-t.waveOffset) 8 = 5)) = true := by
    unfold ofChanges?
    rw [sort_eq_insertionSort]
    decide +kernel
  obtain ⟨t, ht, hcheck⟩ := (Option.any_eq_true _ _).1 h
  simp only [Bool.and_eq_true, Array.all_eq_true', decide_eq_true_iff, Bool.not_eq_true'] at hcheck
  obtain ⟨⟨⟨hknots, hpositions⟩, hbpm⟩, hseconds⟩ := hcheck
  have hsorted : t.Sorted := (chained ht fun i hi => (hknots _ (Array.getElem_mem hi)).2).sorted
  obtain ⟨hvalue, hbpmAt, hposition⟩ := searches_eq_scans
  refine ⟨t, ht, hsorted, hpositions, ?_, ?_, fun k hk => ?_⟩
  · rw [hbpmAt t hsorted (-0), hbpm]
  · rw [seconds, hvalue _ _ hsorted _ 8 (by decide), hseconds]
  · exact hposition _ _ t ht k hk (hknots k hk).1 (hknots k hk).2

end BpmTimeline

end RhythmChart
