import RhythmChart.Proofs.Rulings
import RhythmChart.Tempo

/-!
# Changes of tempo

`tempoChanges` is what definitions and placements come to: where any name is placed, the placed definitions make
changes and the others are reported; elsewhere the lowest name counts from the beginning.  The reading asks
two questions on the way, whether a name is placed and whether a change was made.  They have one answer if
the names placed are all defined (`placedChanges_eq_nil_iff`), and then `settleChanges` gives these changes and
these warnings (`yields_settleChanges`).

There are two places where the want of a definition is noticed.  The first one is in `settleChanges`, for a
chart without definitions (`stops_settleChanges`).  The second one is never reached: changes that are settled
are not empty, so they always make a timeline (`exists_ofChanges?_of_settleChanges`).
-/

namespace RhythmChart

variable {α : Type} [Scalar α]

/-- The changes of tempo in the order of names, and the warnings about definitions that make none. -/
def tempoChanges (ds : List (Definition α)) (placed : Kept BpmId (Placement α)) :
    List (BpmChange α) × List (Spanned Warning) :=
  if placed.isEmpty then
    match ds with
    | [] => ([], [])
    | d :: rest => ([⟨d.id, d.bpm, ((0 : Nat) : α)⟩],
        ⟨.implicitInitialBpm d.id, d.span⟩ :: rest.map fun d => ⟨.unplacedBpm d.id, d.span⟩)
  else
    (ds.filterMap fun d => placed[d.id]?.map fun p => ⟨d.id, d.bpm, p.content.beat⟩,
      (ds.filter fun d => !placed.contains d.id).map fun d => ⟨.unplacedBpm d.id, d.span⟩)

variable (defs : List (Definition α)) (placed : Kept BpmId (Placement α))

theorem tempoChanges_of_placed (h : placed.isEmpty = false) :
    tempoChanges defs placed =
      (defs.filterMap fun d => placed[d.id]?.map fun p => d.changeAt p.content.beat,
        (defs.filter fun d => !placed.contains d.id).map Definition.unplaced) := by
  unfold tempoChanges
  rw [if_neg (Bool.eq_false_iff.1 h)]
  rfl

theorem tempoChanges_of_unplaced (h : placed.isEmpty = true) (d : Definition α) :
    tempoChanges (d :: defs) placed =
      ([d.changeAt ((0 : Nat) : α)], d.implicit :: defs.map Definition.unplaced) := by
  rw [tempoChanges, if_pos h]
  rfl

theorem ne_nil_of_tempoChanges (h : (tempoChanges defs placed).1 ≠ []) : defs ≠ [] := by
  rintro rfl
  apply h
  unfold tempoChanges
  split <;> rfl

/-! ## Placed names -/

section Placed

variable {defs placed}

/-- No change is made exactly if no name is placed. -/
theorem placedChanges_eq_nil_iff (hplaced : ∀ id ∈ placed, ∃ d ∈ defs, d.id = id) :
    placedChanges defs placed = [] ↔ placed.isEmpty = true := by
  constructor
  · intro hnil
    by_contra hempty
    obtain ⟨id, hid⟩ := Std.TreeMap.isEmpty_eq_false_iff_exists_mem.1 (Bool.eq_false_iff.2 hempty)
    obtain ⟨d, hd, rfl⟩ := hplaced id hid
    have hnone := List.filterMap_eq_nil_iff.1 hnil d hd
    rw [Std.TreeMap.getElem?_eq_some_getElem hid] at hnone
    cases hnone
  · intro hempty
    refine List.filterMap_eq_nil_iff.2 fun d _ => ?_
    rw [Std.TreeMap.getElem?_eq_none (Std.TreeMap.isEmpty_iff_forall_not_mem.1 hempty d.id)]
    rfl

/-- Some definition makes a change of tempo, if the names placed are all defined. -/
theorem tempoChanges_ne_nil (hdefs : defs ≠ []) (hplaced : ∀ id ∈ placed, ∃ d ∈ defs, d.id = id) :
    (tempoChanges defs placed).1 ≠ [] := by
  cases h : placed.isEmpty with
  | true =>
    obtain ⟨d, rest, rfl⟩ := List.exists_cons_of_ne_nil hdefs
    rw [tempoChanges_of_unplaced rest placed h]
    exact List.cons_ne_nil _ _
  | false =>
    rw [tempoChanges_of_placed defs placed h]
    exact mt (placedChanges_eq_nil_iff hplaced).1 (Bool.eq_false_iff.1 h)

end Placed

/-! ## Settling them -/

/-- The reading settles the changes, with their warnings. -/
theorem yields_settleChanges (hdefs : defs ≠ []) (hplaced : ∀ id ∈ placed, ∃ d ∈ defs, d.id = id)
    (prompts : List (Prompt α)) (warnings : List (Spanned Warning)) :
    Yields (settleChanges defs placed) (.ofHistory prompts warnings) (tempoChanges defs placed).1
      (.ofHistory prompts (warnings ++ (tempoChanges defs placed).2)) := by
  have hnil := placedChanges_eq_nil_iff hplaced
  refine (Yields.warn (leftOver defs placed) prompts warnings).bind ?_
  cases h : placed.isEmpty with
  | true =>
    obtain ⟨d, rest, rfl⟩ := List.exists_cons_of_ne_nil hdefs
    rw [tempoChanges_of_unplaced rest placed h, leftOver, if_pos h, List.append_nil, hnil.2 h]
    exact (Yields.warn _ prompts warnings).bind rfl
  | false =>
    have hne := Bool.eq_false_iff.1 h
    rw [tempoChanges_of_placed defs placed h, leftOver, if_neg hne]
    split
    · next hchanges => exact absurd (hnil.1 hchanges) hne
    · exact Yields.pure_iff.2 ⟨rfl, rfl⟩

/-- Without a definition the changes are not settled. -/
theorem stops_settleChanges (log : Log α) :
    Stops (settleChanges [] placed) log ⟨.noBpmDefinition, ⟨0, 0⟩⟩ log := by
  have hwarn : Yields (warn (leftOver [] placed)) log () log := by
    unfold leftOver
    split <;> rfl
  exact .bind_of_yields hwarn rfl

variable {defs placed} {changes : List (BpmChange α)} {log log' : Log α}

/-- Changes that are settled are some changes. -/
theorem ne_nil_of_settleChanges (h : Yields (settleChanges defs placed) log changes log') : changes ≠ [] := by
  obtain ⟨_, _, -, h⟩ := Yields.bind_iff.1 h
  split at h
  · cases defs with
    | nil => exact absurd h Yields.not_stop
    | cons d rest =>
      obtain ⟨_, _, -, h⟩ := Yields.bind_iff.1 h
      obtain ⟨rfl, -⟩ := Yields.pure_iff.1 h
      exact List.cons_ne_nil _ _
  · next hne =>
    obtain ⟨rfl, -⟩ := Yields.pure_iff.1 h
    exact hne

namespace BpmTimeline

theorem ofChanges?_eq_none_iff {cs : List (BpmChange α)} {waveOffset : α} :
    ofChanges? cs waveOffset = none ↔ cs = [] := by
  have hnil : sort cs = [] ↔ cs = [] := by
    rw [← List.length_eq_zero_iff, sort, List.length_mergeSort, List.length_eq_zero_iff]
  rw [← hnil]
  unfold ofChanges?
  cases sort cs <;> simp

theorem exists_ofChanges? {cs : List (BpmChange α)} (h : cs ≠ []) (waveOffset : α) :
    ∃ tempo, ofChanges? cs waveOffset = some tempo :=
  Option.ne_none_iff_exists'.1 (mt ofChanges?_eq_none_iff.1 h)

end BpmTimeline

/-- Changes that are settled make a timeline: the second place where a definition could be wanting is never
reached. -/
theorem exists_ofChanges?_of_settleChanges (h : Yields (settleChanges defs placed) log changes log')
    (waveOffset : α) : ∃ tempo, BpmTimeline.ofChanges? changes waveOffset = some tempo :=
  BpmTimeline.exists_ofChanges? (ne_nil_of_settleChanges h) waveOffset

end RhythmChart
