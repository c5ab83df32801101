import RhythmChart.Proofs.Course
import RhythmChart.Proofs.Slots
import RhythmChart.Proofs.Timeline.Changes

/-!
# What becomes of BPM definitions

Each name that a chart defines comes out once: it makes a change of tempo, or a warning says that it is
not placed (`perm_names`).  If the chart places any name, the changes are those of the names it places,
each with the BPM and the beat kept for it; otherwise the only change is that of the lowest name at the
beat zero, and a warning says so.  `ofTokens_accounts_for_definitions` carries this to whole charts.
-/

open scoped List

namespace RhythmChart

variable {α : Type} [Scalar α]

/-! ## Names -/

namespace Warning

def unplaced? : Warning → Option BpmId
  | .unplacedBpm id => some id
  | _ => none

def implicit? : Warning → Option BpmId
  | .implicitInitialBpm id => some id
  | _ => none

end Warning

/-- The names that some warnings report as not placed. -/
def unplacedNames (ws : List (Spanned Warning)) : List BpmId :=
  ws.filterMap fun w => w.content.unplaced?

/-- The names that some warnings report as counting from the beginning. -/
def implicitNames (ws : List (Spanned Warning)) : List BpmId :=
  ws.filterMap fun w => w.content.implicit?

/-! ## Names and placements joined -/

section Join

variable (defs : List (Definition α)) (placed : Kept BpmId (Placement α))

theorem unplacedNames_map_unplaced : unplacedNames (defs.map Definition.unplaced) =
    defs.map Definition.id := by
  simp [unplacedNames, List.filterMap_map, Function.comp_def, Definition.unplaced, Warning.unplaced?]

theorem implicitNames_map_unplaced : implicitNames (defs.map Definition.unplaced) = [] := by
  simp [implicitNames, List.filterMap_map, Function.comp_def, Definition.unplaced, Warning.implicit?]

/-- A definition makes a change exactly if its name is placed. -/
theorem map_id_filterMap :
    (defs.filterMap fun d => placed[d.id]?.map fun p => d.changeAt p.content.beat).map BpmChange.id =
      (defs.filter fun d => placed.contains d.id).map Definition.id := by
  rw [List.map_filterMap, ← List.filterMap_eq_map, List.filterMap_filter]
  refine List.filterMap_congr fun d _ => ?_
  rw [Std.TreeMap.contains_eq_isSome_getElem?]
  cases placed[d.id]? <;> rfl

/-- The definitions fall into those that make a change and those reported as not placed. -/
theorem exists_partition : ∃ placedDefs others : List (Definition α),
    placedDefs <+ defs ∧ others <+ defs ∧ placedDefs ++ others ~ defs ∧
      (tempoChanges defs placed).1.map BpmChange.id = placedDefs.map Definition.id ∧
      unplacedNames (tempoChanges defs placed).2 = others.map Definition.id := by
  cases h : placed.isEmpty with
  | true =>
    cases defs with
    | nil =>
      refine ⟨[], [], List.Sublist.slnil, List.Sublist.slnil, List.Perm.nil, ?_, ?_⟩ <;>
        · rw [tempoChanges, if_pos h]
          rfl
    | cons d defs =>
      refine ⟨[d], defs, (List.nil_sublist _).cons_cons d, List.sublist_cons_self _ _, List.Perm.rfl,
        ?_, ?_⟩
      · rw [tempoChanges_of_unplaced defs placed h]
        rfl
      · rw [tempoChanges_of_unplaced defs placed h]
        change unplacedNames (defs.map Definition.unplaced) = _
        rw [unplacedNames_map_unplaced]
  | false =>
    refine ⟨defs.filter fun d => placed.contains d.id, defs.filter fun d => !placed.contains d.id,
      List.filter_sublist, List.filter_sublist, List.filter_append_perm _ defs, ?_, ?_⟩
    · rw [tempoChanges_of_placed defs placed h, map_id_filterMap]
    · rw [tempoChanges_of_placed defs placed h, unplacedNames_map_unplaced]

/-- Each name comes out once: as a change, or as one not placed. -/
theorem perm_names : (tempoChanges defs placed).1.map BpmChange.id ++
    unplacedNames (tempoChanges defs placed).2 ~ defs.map Definition.id := by
  obtain ⟨placedDefs, others, -, -, hperm, hchanges, hothers⟩ := exists_partition defs placed
  rw [hchanges, hothers, ← List.map_append]
  exact hperm.map _

/-- Changes come in the order of the definitions. -/
theorem changeNames_sublist :
    (tempoChanges defs placed).1.map BpmChange.id <+ defs.map Definition.id := by
  obtain ⟨placedDefs, others, hsub, -, -, hchanges, -⟩ := exists_partition defs placed
  rw [hchanges]
  exact hsub.map _

/-- Names not placed are reported in the order of the definitions. -/
theorem unplacedNames_sublist :
    unplacedNames (tempoChanges defs placed).2 <+ defs.map Definition.id := by
  obtain ⟨placedDefs, others, -, hsub, -, -, hothers⟩ := exists_partition defs placed
  rw [hothers]
  exact hsub.map _

end Join

/-! ## Placements as the tokens write them -/

namespace Token

/-- Some object of a message on the BPM channel has the name. -/
def Places (ts : List (Spanned (Token α))) (id : BpmId) : Prop :=
  ∃ (track : Track) (payload : String) (span : Span),
    ⟨.message track .bpmChange payload, span⟩ ∈ ts ∧
      ∃ i < payload.toList.length / 2, Slot.idAt? payload.toList i = some id

theorem places_iff (measures : MeasureTimeline α) {ts : List (Spanned (Token α))} {id : BpmId} :
    Places ts id ↔ ∃ d ∈ placements measures ts, d.key = id := by
  simp only [Places, placements_eq_flatMap, List.mem_flatMap]
  constructor
  · rintro ⟨track, payload, span, hmem, hid⟩
    obtain ⟨s, hs, rfl⟩ := (Slot.exists_mem_decode_iff measures track _ id).2 hid
    exact ⟨_, ⟨_, hmem, List.mem_map_of_mem hs⟩, rfl⟩
  · rintro ⟨d, ⟨⟨content, span⟩, hmem, hd⟩, rfl⟩
    split at hd
    · next track payload heq =>
      obtain ⟨s, hs, rfl⟩ := List.mem_map.1 hd
      cases heq
      exact ⟨track, payload, span, hmem,
        (Slot.exists_mem_decode_iff measures track _ _).1 ⟨s, hs, rfl⟩⟩
    · cases hd

end Token

/-! ## Accepted charts -/

namespace Chart

open Token

/-- The change is that of the definition and of the placement that are kept for its name.  The placement is
written by a slot, and the change is at the beat of this slot. -/
structure IsKept (ts : List (Spanned (Token α))) (r : Rulings α) (c : BpmChange α) : Prop where
  definition : ∃ span, (keptAfter r.definitions)[c.id]? = some ⟨c.bpm.toFinite, span⟩
  placement : ∃ p, (keptAfter r.placements)[c.id]? = some p ∧ PlacedAt r.measures ts c.id p ∧
    c.beat = p.content.beat

/-- Names that are placed are defined. -/
theorem Course.defines_of_places {prompter : Prompter α} {ts : List (Spanned (Token α))}
    {r : Rulings α} (h : Course prompter ts r none) {id : BpmId} (hid : Places ts id) :
    Defines ts id := by
  cases h with
  | settled before settled defined =>
    obtain ⟨d, hd, rfl⟩ := (places_iff r.measures).1 hid
    rw [← settled.complete] at hd
    obtain ⟨p, hp, rfl⟩ := List.mem_map.1 hd
    exact defined p hp

namespace MadeOf

variable {prompter : Prompter α} {ts : List (Spanned (Token α))} {r : Rulings α}
  {defs : List (Definition α)} {chart : Chart α}

theorem kept_of_mem (m : MadeOf prompter ts r defs chart) {d : Definition α} (hd : d ∈ defs) :
    (keptAfter r.definitions)[d.id]? = some ⟨d.bpm.toFinite, d.span⟩ := by
  refine Std.TreeMap.mem_toList_iff_getElem?_eq_some.1 ?_
  rw [← m.entries]
  exact List.mem_map_of_mem hd

theorem pairwise_names (m : MadeOf prompter ts r defs chart) :
    (defs.map Definition.id).Pairwise fun a b => a.value < b.value := by
  have hsorted := Std.TreeMap.ordered_keys_toList (t := keptAfter r.definitions)
  rw [← m.entries, List.pairwise_map] at hsorted
  exact List.pairwise_map.2 (hsorted.imp compare_eq_lt_iff.1)

theorem mem_names_iff (m : MadeOf prompter ts r defs chart) {id : BpmId} :
    id ∈ defs.map Definition.id ↔ Defines ts id := by
  have hkeys : defs.map Definition.id = (keptAfter r.definitions).keys := by
    rw [← Std.TreeMap.map_fst_toList_eq_keys, ← m.entries, List.map_map]
    rfl
  rw [hkeys, Std.TreeMap.mem_keys, m.course.definitionsSettled.mem_iff]

/-- The names placed are the keys of the placements kept. -/
theorem mem_placements_iff (m : MadeOf prompter ts r defs chart) {id : BpmId} :
    id ∈ keptAfter r.placements ↔ Places ts id := by
  have settled := m.course.placementsSettled
  rw [settled.ruled.grounded.mem_iff, settled.complete, places_iff r.measures]

/-- Without definitions there would be no tempo. -/
theorem defs_ne_nil (m : MadeOf prompter ts r defs chart) : defs ≠ [] := by
  refine ne_nil_of_tempoChanges defs (keptAfter r.placements) fun hnil => m.changes_ne_nil ?_
  have hchanges := m.perm_changes
  rw [hnil] at hchanges
  exact hchanges.eq_nil

theorem filterMap_warnings (m : MadeOf prompter ts r defs chart) {f : Warning → Option BpmId}
    (hf : ∀ w, w.topic ≠ .tempo → f w = none) :
    (chart.warnings.filterMap fun w => f w.content) =
      (tempoChanges defs (keptAfter r.placements)).2.filterMap fun w => f w.content := by
  rw [← Warning.filterMap_filter_topic hf chart.warnings, m.filter_warnings .tempo]

theorem unplacedNames_warnings (m : MadeOf prompter ts r defs chart) :
    unplacedNames chart.warnings = unplacedNames (tempoChanges defs (keptAfter r.placements)).2 :=
  m.filterMap_warnings fun w hw => by cases w <;> first | rfl | exact absurd rfl hw

theorem implicitNames_warnings (m : MadeOf prompter ts r defs chart) :
    implicitNames chart.warnings = implicitNames (tempoChanges defs (keptAfter r.placements)).2 :=
  m.filterMap_warnings fun w hw => by cases w <;> first | rfl | exact absurd rfl hw

/-- Each change is that of a definition, at the beat of its placement. -/
theorem isKept_of_mem (m : MadeOf prompter ts r defs chart)
    (hplaced : (keptAfter r.placements).isEmpty = false) {c : BpmChange α}
    (hc : c ∈ chart.song.changes) : IsKept ts r c := by
  rw [m.perm_changes.mem_iff, tempoChanges_of_placed _ _ hplaced, List.mem_filterMap] at hc
  obtain ⟨d, hd, hc⟩ := hc
  obtain ⟨p, hp, rfl⟩ := Option.map_eq_some_iff.1 hc
  have settled := m.course.placementsSettled
  have hdeclared := settled.ruled.grounded.declared d.id p hp
  rw [settled.complete] at hdeclared
  exact ⟨⟨d.span, m.kept_of_mem hd⟩, p, hp, placedAt_of_mem hdeclared, rfl⟩

/-- If any name is placed, the names of the changes are those placed. -/
theorem mem_changes_iff (m : MadeOf prompter ts r defs chart)
    (hplaced : (keptAfter r.placements).isEmpty = false) {id : BpmId} :
    id ∈ chart.song.changes.map BpmChange.id ↔ Places ts id := by
  rw [(m.perm_changes.map _).mem_iff, tempoChanges_of_placed _ _ hplaced, map_id_filterMap,
    List.mem_map]
  constructor
  · rintro ⟨d, hd, rfl⟩
    exact m.mem_placements_iff.1 (Std.TreeMap.mem_iff_contains.2 (List.mem_filter.1 hd).2)
  · intro hid
    have hdefined : id ∈ defs.map Definition.id := m.mem_names_iff.2 (m.course.defines_of_places hid)
    obtain ⟨d, hd, rfl⟩ := List.mem_map.1 hdefined
    refine ⟨d, List.mem_filter.2 ⟨hd, ?_⟩, rfl⟩
    exact Std.TreeMap.mem_iff_contains.1 (m.mem_placements_iff.2 hid)

end MadeOf

/-- What becomes of the definitions of a chart, by the rulings on its declarations. -/
structure DefinitionsAccounted (ts : List (Spanned (Token α))) (r : Rulings α) (chart : Chart α) : Prop where
  /-- No name comes out twice, as a change or as one that is reported. -/
  once : (chart.song.changes.map BpmChange.id ++ unplacedNames chart.warnings).Nodup
  /-- The names that come out are those that are defined. -/
  names : ∀ id, id ∈ chart.song.changes.map BpmChange.id ++ unplacedNames chart.warnings ↔
    Defines ts id
  /-- Names that are reported ascend. -/
  ascending : (unplacedNames chart.warnings).Pairwise fun a b => a.value < b.value
  placed : (∃ id, Places ts id) →
    (∀ id, id ∈ chart.song.changes.map BpmChange.id ↔ Places ts id) ∧
      (∀ c ∈ chart.song.changes, IsKept ts r c) ∧ implicitNames chart.warnings = []
  /-- Without a placement, the lowest name counts from the beginning. -/
  unplaced : (∀ id, ¬ Places ts id) → ∃ (id : BpmId) (bpm : Positive α) (span : Span),
    Defines ts id ∧ (∀ other, Defines ts other → id.value ≤ other.value) ∧
      (keptAfter r.definitions)[id]? = some ⟨bpm.toFinite, span⟩ ∧
      chart.song.changes = [⟨id, bpm, ((0 : Nat) : α)⟩] ∧ implicitNames chart.warnings = [id]

/-- Each name that an accepted chart defines comes out once. -/
theorem ofTokens_accounts_for_definitions (prompter : Prompter α) (ts : List (Spanned (Token α)))
    {chart : Chart α} (h : (ofTokens prompter ts).result = .ok chart) :
    ∃ r, Course prompter ts r none ∧ chart.song.measures = r.measures ∧ DefinitionsAccounted ts r chart := by
  obtain ⟨r, defs, m⟩ := exists_madeOf h
  have hnames : chart.song.changes.map BpmChange.id ++ unplacedNames chart.warnings ~
      defs.map Definition.id := by
    rw [m.unplacedNames_warnings]
    exact ((m.perm_changes.map _).append_right _).trans (perm_names defs (keptAfter r.placements))
  have hempty : (keptAfter r.placements).isEmpty = false ↔ ∃ id, Places ts id := by
    simp only [Std.TreeMap.isEmpty_eq_false_iff_exists_mem, m.mem_placements_iff]
  refine ⟨r, m.course, m.measures,
    { once := hnames.nodup_iff.2 (m.pairwise_names.imp fun hlt heq => ?_)
      names := fun id => hnames.mem_iff.trans m.mem_names_iff
      ascending := ?_
      placed := fun hplaced => ?_
      unplaced := fun hnone => ?_ }⟩
  · rw [heq] at hlt
    exact Nat.lt_irrefl _ hlt
  · rw [m.unplacedNames_warnings]
    exact m.pairwise_names.sublist (unplacedNames_sublist _ _)
  · have hplaced := hempty.2 hplaced
    refine ⟨fun id => m.mem_changes_iff hplaced, fun c hc => m.isKept_of_mem hplaced hc, ?_⟩
    rw [m.implicitNames_warnings, tempoChanges_of_placed _ _ hplaced]
    exact implicitNames_map_unplaced _
  · have hplaced : (keptAfter r.placements).isEmpty = true := by
      by_contra hne
      obtain ⟨id, hid⟩ := hempty.1 (Bool.eq_false_iff.2 hne)
      exact hnone id hid
    obtain ⟨d, rest, rfl⟩ := List.exists_cons_of_ne_nil m.defs_ne_nil
    have hchanges := m.perm_changes
    rw [tempoChanges_of_unplaced rest _ hplaced d] at hchanges
    refine ⟨d.id, d.bpm, d.span, m.mem_names_iff.1 List.mem_cons_self, fun other hother => ?_,
      m.kept_of_mem List.mem_cons_self, List.perm_singleton.1 hchanges, ?_⟩
    · rcases List.mem_cons.1 (m.mem_names_iff.2 hother) with rfl | hmem
      · exact Nat.le_refl _
      · exact Nat.le_of_lt ((List.pairwise_cons.1 m.pairwise_names).1 other hmem)
    · rw [m.implicitNames_warnings, tempoChanges_of_unplaced rest _ hplaced d]
      change d.id :: implicitNames (rest.map Definition.unplaced) = [d.id]
      rw [implicitNames_map_unplaced]

/-- Of the names `01` and `02`, only the second is placed. -/
theorem ofTokens_accounts_for_definitions_of_two :
    let ts : List (Spanned (Token Float)) := [⟨.bpmDefinition ⟨1⟩ Finite.four, ⟨0, 9⟩⟩,
      ⟨.bpmDefinition ⟨2⟩ Finite.four, ⟨10, 19⟩⟩, ⟨.message ⟨0⟩ .bpmChange "0002", ⟨20, 30⟩⟩]
    ∃ chart r, (ofTokens (Prompter.always .halt) ts).result = .ok chart ∧
      Course (Prompter.always .halt) ts r none ∧ DefinitionsAccounted ts r chart := by
  intro ts
  obtain ⟨chart, hok⟩ : ∃ chart, (ofTokens (Prompter.always .halt) ts).result = .ok chart :=
    exists_eq_ok_of_isOk (by decide +kernel)
  obtain ⟨r, course, -, accounts⟩ := ofTokens_accounts_for_definitions _ ts hok
  exact ⟨chart, r, hok, course, accounts⟩

end Chart

end RhythmChart
