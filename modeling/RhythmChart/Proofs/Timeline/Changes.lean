import RhythmChart.Proofs.Order
import RhythmChart.Timeline

/-!
# The changes of a timeline

Resolving gives each change a value and leaves the changes as they are.  So the changes of a measure
timeline are those it was made of, and the changes of a tempo are those it was made of, sorted by their
beats.  `Timeline.Linked` says how the values hang together.
-/

namespace RhythmChart

namespace Timeline

section Changes

variable {ρ α : Type} {t : Timeline ρ α}

theorem change_mem {i : Nat} (hi : i < t.knots.size) :
    t.knots[i].change ∈ t.knots.toList.map Knot.change :=
  List.mem_map_of_mem (Array.getElem_mem_toList hi)

/-- A relation of changes that holds along the timeline holds from each knot to all later ones. -/
theorem pairwise_changes {R : ρ → ρ → Prop}
    (h : (t.knots.toList.map Knot.change).Pairwise R) {i j : Nat} (hij : i < j)
    (hj : j < t.knots.size) : R t.knots[i].change t.knots[j].change := by
  rw [List.pairwise_map, List.pairwise_iff_getElem] at h
  exact h i j (by simpa using Nat.lt_trans hij hj) (by simpa using hj) hij

end Changes

variable {ρ α : Type} [Scalar α] [Rate ρ α]

theorem map_change_resolveFrom (k : Knot ρ α) (cs : List ρ) :
    (resolveFrom k cs).map Knot.change = cs := by
  induction cs generalizing k with
  | nil => rfl
  | cons c cs ih => rw [resolveFrom, List.map_cons, ih]

theorem map_change_resolve (origin : α) (c : ρ) (cs : List ρ) :
    (resolve origin c cs).knots.toList.map Knot.change = c :: cs := by
  simp only [resolve, List.map_cons, map_change_resolveFrom]
  rfl

/-- Each knot has the value that the one before it leads to. -/
theorem value_resolveFrom (k : Knot ρ α) (cs : List ρ) (i : Nat)
    (h : i + 1 < (k :: resolveFrom k cs).length) :
    (k :: resolveFrom k cs)[i + 1].value =
      (k :: resolveFrom k cs)[i].extend (k :: resolveFrom k cs)[i + 1].position := by
  induction cs generalizing k i with
  | nil => simp [resolveFrom] at h
  | cons c cs ih =>
    cases i with
    | zero => rfl
    | succ i => exact ih _ i (by simpa [resolveFrom] using h)

/-- The first knot is where its own rate leads from the origin, each other one where the rate of the one
before it leads. -/
structure Linked (t : Timeline ρ α) (origin : α) : Prop where
  first : t.first.value = Rate.advance t.first.change origin t.first.position
  next : ∀ i (_ : i + 1 < t.knots.size),
    t.knots[i + 1].value = t.knots[i].extend t.knots[i + 1].position

theorem linked_resolve (origin : α) (c : ρ) (cs : List ρ) : (resolve origin c cs).Linked origin := by
  refine ⟨rfl, fun i hi => ?_⟩
  have := value_resolveFrom (firstKnot origin c) cs i (by simpa [resolve] using hi)
  simpa [resolve] using this

end Timeline

namespace MeasureTimeline

variable {α : Type} [Scalar α]

theorem map_change_ofChanges {cs : List (MeasureChange α)} (h : cs ≠ []) :
    (ofChanges cs).knots.toList.map Knot.change = cs := by
  cases cs with
  | nil => exact absurd rfl h
  | cons c cs => exact Timeline.map_change_resolve _ c cs

theorem map_change_ofChanges_nil :
    (ofChanges []).knots.toList.map Knot.change = [(initial : MeasureChange α)] :=
  Timeline.map_change_resolve _ initial []

theorem linked_ofChanges (cs : List (MeasureChange α)) :
    (ofChanges cs).Linked ((0 : Nat) : α) := by
  cases cs with
  | nil => exact Timeline.linked_resolve _ initial []
  | cons c cs => exact Timeline.linked_resolve _ c cs

end MeasureTimeline

namespace BpmTimeline

variable {α : Type} [Scalar α] {cs : List (BpmChange α)} {waveOffset : α} {t : BpmTimeline α}

theorem waveOffset_ofChanges? (h : ofChanges? cs waveOffset = some t) : t.waveOffset = waveOffset := by
  unfold ofChanges? at h
  split at h <;> cases h
  rfl

theorem map_change_ofChanges? (h : ofChanges? cs waveOffset = some t) :
    t.knots.toList.map Knot.change = sort cs := by
  unfold ofChanges? at h
  split at h
  · cases h
  · next c rest hsort =>
    cases h
    rw [hsort]
    exact Timeline.map_change_resolve _ c rest

theorem linked_ofChanges? (h : ofChanges? cs waveOffset = some t) : t.Linked (-waveOffset) := by
  unfold ofChanges? at h
  split at h
  · cases h
  · cases h
    exact Timeline.linked_resolve _ _ _

theorem sort_eq_insertionSort [Scalar.LawfulOrder α] : (sort : List (BpmChange α) → _) =
    List.insertionSort fun a b => Scalar.totalLE a.beat b.beat = true :=
  funext (mergeSort_eq_insertionSort BpmChange.beat)

/-- The changes of a tempo are sorted by their beats from those it was made of. -/
theorem sortedFrom_ofChanges? [Scalar.LawfulOrder α] (h : ofChanges? cs waveOffset = some t) :
    SortedFrom BpmChange.beat cs (t.knots.toList.map Knot.change) := by
  rw [map_change_ofChanges? h]
  exact sortedFrom_mergeSort BpmChange.beat cs

end BpmTimeline

end RhythmChart
