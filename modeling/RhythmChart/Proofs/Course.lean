import Mathlib.Data.Set.List
import RhythmChart.Proofs.Rulings
import RhythmChart.Proofs.Stages
import RhythmChart.Proofs.Warnings

/-!
# The course of a reading

A chart is read in a fixed course: the beats of measures are settled, then the BPM definitions, then the
placements, which must name a definition; then the definitions kept are checked and joined with their
placements.  `Course` says which rulings the three groups get, and which error stops them, if any
(`exists_course`, `Course.stops`).  When nothing stops them, the reading ends in one of three ways
(`Course.ofTokens_of_nonPositive`, `Course.ofTokens_of_undefined`, `Course.ofTokens_of_tempo`).
-/

open scoped List

namespace RhythmChart

variable {α : Type} [Scalar α]

/-- The changes of tempo of a song, in the order of its timeline. -/
def Song.changes (s : Song α) : List (BpmChange α) := s.tempo.knots.toList.map Knot.change

/-! ## Definitions and placements -/

namespace Token

/-- Some token of the chart defines the name. -/
def Defines (ts : List (Spanned (Token α))) (id : BpmId) : Prop :=
  ∃ (bpm : Finite α) (span : Span), ⟨.bpmDefinition id bpm, span⟩ ∈ ts

theorem defines_iff {ts : List (Spanned (Token α))} {id : BpmId} :
    Defines ts id ↔ ∃ d ∈ bpmDeclarations ts, d.key = id := by
  simp only [Defines, mem_bpmDeclarations_iff]
  constructor
  · rintro ⟨bpm, span, hmem⟩
    exact ⟨⟨id, bpm, span⟩, hmem, rfl⟩
  · rintro ⟨d, hmem, rfl⟩
    exact ⟨_, _, hmem⟩

end Token

/-- The question about a repeated placement.  It names the two times. -/
def Duplication.ofPlacements (id : BpmId) (older newer : Placement α) : Duplication α :=
  .bpmPlacement id older.time newer.time

section Placements

variable {prompter : Prompter α} {defined : Kept BpmId (Finite α)}
  {before after : List (Declaration BpmId (Placement α))} {log log' : Log α}

/-- Placements are settled as any declarations are, as far as they name definitions. -/
theorem settlePlacements_append (hdefined : ∀ d ∈ before, d.key ∈ defined) :
    settlePlacements prompter defined (before ++ after) = (do
      let kept ← settle prompter .ofPlacements before
      after.foldlM (fun kept d => do
        if defined.contains d.key then declare prompter .ofPlacements kept d
        else stop (.undefinedBpm d.key) d.span) kept) := by
  rw [settlePlacements, List.foldlM_append, settle]
  refine congrArg (· >>= _) ?_
  generalize (∅ : Kept BpmId (Placement α)) = kept
  induction before generalizing kept with
  | nil => rfl
  | cons d before ih =>
    have hd : defined.contains d.key = true := Std.TreeMap.mem_iff_contains.1 (hdefined d (by simp))
    simp only [List.foldlM_cons, if_pos hd]
    exact bind_congr fun kept => ih (fun d hd => hdefined d (by simp [hd])) kept

theorem settlePlacements_eq_settle (hdefined : ∀ d ∈ before, d.key ∈ defined) :
    settlePlacements prompter defined before = settle prompter .ofPlacements before := by
  rw [← List.append_nil before, settlePlacements_append hdefined]
  simp only [List.append_nil, List.foldlM_nil, bind_pure]

end Placements

/-! ## The definitions kept -/

/-- The entry of a definition among those kept. -/
def Definition.entry (d : Definition α) : BpmId × Spanned (Finite α) :=
  (d.id, ⟨d.bpm.toFinite, d.span⟩)

/-- The lowest name whose BPM is not above zero. -/
structure LowestNonPositive (kept : Kept BpmId (Finite α)) (id : BpmId) (bpm : Spanned (Finite α)) :
    Prop where
  holds : kept[id]? = some bpm
  nonPositive : ¬ ((0 : Nat) : α) < bpm.content.val
  lowest : ∀ (other : BpmId) (bpm : Spanned (Finite α)), kept[other]? = some bpm →
    other.value < id.value → ((0 : Nat) : α) < bpm.content.val

theorem exists_entry_eq {e : BpmId × Spanned (Finite α)} (h : ((0 : Nat) : α) < e.2.content.val) :
    ∃ d : Definition α, d.entry = e :=
  ⟨⟨e.1, ⟨e.2.content, h⟩, e.2.span⟩, rfl⟩

/-- Entries above zero are definitions. -/
theorem exists_map_entry_eq {es : List (BpmId × Spanned (Finite α))}
    (h : ∀ e ∈ es, ((0 : Nat) : α) < e.2.content.val) :
    ∃ defs : List (Definition α), defs.map Definition.entry = es := by
  have : es ∈ Set.range (List.map (Definition.entry (α := α))) := by
    rw [Set.range_list_map]
    exact fun e he => exists_entry_eq (h e he)
  exact this

theorem yields_mapM_definition (defs : List (Definition α)) (log : Log α) :
    Yields ((defs.map Definition.entry).mapM fun (id, bpm) => definition id bpm) log defs log := by
  induction defs with
  | nil => rfl
  | cons d defs ih =>
    have hd : Yields (definition d.entry.1 d.entry.2) log d log := by
      unfold definition Finite.positive? Definition.entry
      rw [dif_pos d.bpm.pos]
      rfl
    rw [List.map_cons, List.mapM_cons]
    exact hd.bind (ih.bind rfl)

theorem yields_definitions {kept : Kept BpmId (Finite α)} {defs : List (Definition α)}
    (h : defs.map Definition.entry = kept.toList) (log : Log α) :
    Yields (definitions kept) log defs log := by
  rw [definitions, ← h]
  exact yields_mapM_definition defs log

theorem compare_eq_lt_iff {a b : BpmId} : compare a b = .lt ↔ a.value < b.value :=
  Nat.compare_eq_lt

/-- The definitions kept are all above zero, or there is a lowest one that is not. -/
theorem definitions_cases (kept : Kept BpmId (Finite α)) :
    (∃ defs : List (Definition α), defs.map Definition.entry = kept.toList) ∨
      ∃ id bpm, LowestNonPositive kept id bpm := by
  cases hfind : kept.toList.find? fun e => !decide (((0 : Nat) : α) < e.2.content.val) with
  | none =>
    refine .inl (exists_map_entry_eq fun e he => ?_)
    simpa using List.find?_eq_none.1 hfind e he
  | some e =>
    obtain ⟨hbad, before, after, hsplit, hbefore⟩ := List.find?_eq_some_iff_append.1 hfind
    refine .inr ⟨e.1, e.2, ?_, by simpa using hbad, fun other bpm hother hlt => ?_⟩
    · exact Std.TreeMap.mem_toList_iff_getElem?_eq_some.1 (hsplit ▸ by simp)
    · have hmem := Std.TreeMap.mem_toList_iff_getElem?_eq_some.2 hother
      have hsorted := Std.TreeMap.ordered_keys_toList (t := kept)
      rw [hsplit] at hmem hsorted
      rcases List.mem_append.1 hmem with hmem | hmem
      · simpa using hbefore _ hmem
      -- From the first bad entry on, no name is lower than its own.
      · rcases List.mem_cons.1 hmem with rfl | hmem
        · exact absurd hlt (Nat.lt_irrefl _)
        · have hle := (List.pairwise_cons.1 (List.pairwise_append.1 hsorted).2.1).1 _ hmem
          exact absurd hlt (Nat.lt_asymm (compare_eq_lt_iff.1 hle))

theorem LowestNonPositive.stops {kept : Kept BpmId (Finite α)} {id : BpmId} {bpm : Spanned (Finite α)}
    (h : LowestNonPositive kept id bpm) (log : Log α) :
    Stops (definitions kept) log ⟨.nonPositiveBpm id, bpm.span⟩ log := by
  obtain ⟨before, after, hsplit⟩ :=
    List.append_of_mem (Std.TreeMap.mem_toList_iff_getElem?_eq_some.2 h.holds)
  have hsorted := Std.TreeMap.ordered_keys_toList (t := kept)
  have hmem (e : BpmId × Spanned (Finite α)) (he : e ∈ before) : kept[e.1]? = some e.2 :=
    Std.TreeMap.mem_toList_iff_getElem?_eq_some.1 (hsplit ▸ by simp [he])
  rw [hsplit] at hsorted
  obtain ⟨defs, rfl⟩ := exists_map_entry_eq fun e he =>
    h.lowest e.1 e.2 (hmem e he)
      (compare_eq_lt_iff.1 ((List.pairwise_append.1 hsorted).2.2 e he _ List.mem_cons_self))
  have hstop : Stops (definition id bpm) log ⟨.nonPositiveBpm id, bpm.span⟩ log := by
    unfold definition Finite.positive?
    rw [dif_neg h.nonPositive]
    rfl
  rw [definitions, hsplit, List.mapM_append, List.mapM_cons]
  exact .bind_of_yields (yields_mapM_definition defs log) hstop.bind.bind

/-! ## The groups of a chart -/

/-- The rulings on the declarations of a chart, group by group. -/
structure Rulings (α : Type) [Scalar α] where
  beats : List (Ruling α Track (Finite α))
  definitions : List (Ruling α BpmId (Finite α))
  placements : List (Ruling α BpmId (Placement α))

namespace Rulings

def calls (r : Rulings α) : List (Prompt α) :=
  RhythmChart.calls r.beats ++ RhythmChart.calls r.definitions ++ RhythmChart.calls r.placements

def duplicateWarnings (r : Rulings α) : List (Spanned Warning) :=
  RhythmChart.duplicateWarnings r.beats ++ RhythmChart.duplicateWarnings r.definitions ++
    RhythmChart.duplicateWarnings r.placements

theorem topic_of_mem_duplicateWarnings {r : Rulings α} {w : Spanned Warning}
    (h : w ∈ r.duplicateWarnings) : w.content.topic = .repetition := by
  simp only [duplicateWarnings, List.mem_append] at h
  rcases h with (h | h) | h <;> exact RhythmChart.topic_of_mem_duplicateWarnings h

/-- The log when the three groups are settled. -/
def log (r : Rulings α) : Log α := .ofHistory r.calls r.duplicateWarnings

/-- The positions of the chart, by the beats kept. -/
def measures (r : Rulings α) : MeasureTimeline α := Chart.measureTimeline (keptAfter r.beats)

theorem log_beats (m : List (Ruling α Track (Finite α))) :
    log ⟨m, [], []⟩ = .after [] [] m := by
  simp [log, calls, duplicateWarnings, Log.after, RhythmChart.calls, RhythmChart.duplicateWarnings]

theorem log_definitions (m : List (Ruling α Track (Finite α)))
    (b : List (Ruling α BpmId (Finite α))) :
    log ⟨m, b, []⟩ = .after (RhythmChart.calls m) (RhythmChart.duplicateWarnings m) b := by
  simp [log, calls, duplicateWarnings, Log.after, RhythmChart.calls, RhythmChart.duplicateWarnings]

end Rulings

namespace Chart

open Token

/-- The first two groups of a chart are settled to the last. -/
structure DefinitionsSettled (prompter : Prompter α) (ts : List (Spanned (Token α)))
    (r : Rulings α) : Prop where
  beats : Settles prompter .beatsPerMeasure [] (beatsDeclarations ts) r.beats
  definitions : Settles prompter .bpmDefinition (calls r.beats) (bpmDeclarations ts) r.definitions

/-- The rulings on the three groups of a chart, and the error that stops the settling, if any.  Calls of
a group come after those of the groups before it. -/
inductive Course (prompter : Prompter α) (ts : List (Spanned (Token α))) :
    Rulings α → Option (Spanned ParseError) → Prop
  | beatsHalted {m d} (beats : HaltsAt prompter .beatsPerMeasure [] (beatsDeclarations ts) m d) :
      Course prompter ts ⟨m, [], []⟩ (some ⟨.halted, d.span⟩)
  | definitionHalted {m b d} (beats : Settles prompter .beatsPerMeasure [] (beatsDeclarations ts) m)
      (definitions : HaltsAt prompter .bpmDefinition (calls m) (bpmDeclarations ts) b d) :
      Course prompter ts ⟨m, b, []⟩ (some ⟨.halted, d.span⟩)
  /-- A placement halts, and it and those before it name definitions. -/
  | placementHalted {r d} (before : DefinitionsSettled prompter ts r)
      (placements : HaltsAt prompter .ofPlacements (calls r.beats ++ calls r.definitions)
        (placements r.measures ts) r.placements d)
      (defined : ∀ p ∈ r.placements, Defines ts p.declaration.key) :
      Course prompter ts r (some ⟨.halted, d.span⟩)
  /-- A placement names no definition, and those before it do and do not halt. -/
  | undefinedBpm {r ds d rest} (before : DefinitionsSettled prompter ts r)
      (split : placements r.measures ts = ds ++ d :: rest)
      (placements : Settles prompter .ofPlacements (calls r.beats ++ calls r.definitions) ds
        r.placements)
      (defined : ∀ p ∈ r.placements, Defines ts p.declaration.key)
      (undefined : ¬ Defines ts d.key) :
      Course prompter ts r (some ⟨.undefinedBpm d.key, d.span⟩)
  | settled {r} (before : DefinitionsSettled prompter ts r)
      (placements : Settles prompter .ofPlacements (calls r.beats ++ calls r.definitions)
        (placements r.measures ts) r.placements)
      (defined : ∀ p ∈ r.placements, Defines ts p.declaration.key) :
      Course prompter ts r none

variable {prompter : Prompter α} {ts : List (Spanned (Token α))} {r : Rulings α}

/-- The names that are kept are those that some token defines. -/
theorem DefinitionsSettled.mem_iff (h : DefinitionsSettled prompter ts r) {id : BpmId} :
    id ∈ keptAfter r.definitions ↔ Defines ts id := by
  rw [h.definitions.ruled.grounded.mem_iff, h.definitions.complete, defines_iff]

/-- The placements before the first one that names no definition. -/
theorem exists_named_append (ts : List (Spanned (Token α)))
    (ds : List (Declaration BpmId (Placement α))) :
    ∃ named rest, ds = named ++ rest ∧ (∀ d ∈ named, Defines ts d.key) ∧
      ∀ d ∈ rest.head?, ¬ Defines ts d.key := by
  induction ds with
  | nil => exact ⟨[], [], rfl, by simp, by simp⟩
  | cons d ds ih =>
    by_cases hd : Defines ts d.key
    · obtain ⟨named, rest, rfl, hnamed, hrest⟩ := ih
      exact ⟨d :: named, rest, rfl, List.forall_mem_cons.2 ⟨hd, hnamed⟩, hrest⟩
    · exact ⟨[], d :: ds, rfl, by simp, by simpa using hd⟩

/-- The settling of a chart takes some course. -/
theorem exists_course (prompter : Prompter α) (ts : List (Spanned (Token α))) :
    ∃ r e, Course prompter ts r e := by
  obtain ⟨m, beats | ⟨d, beats⟩⟩ :=
    exists_settles_or_haltsAt prompter .beatsPerMeasure [] (beatsDeclarations ts)
  swap
  · exact ⟨_, _, .beatsHalted beats⟩
  obtain ⟨b, definitions | ⟨d, definitions⟩⟩ :=
    exists_settles_or_haltsAt prompter .bpmDefinition (calls m) (bpmDeclarations ts)
  swap
  · exact ⟨_, _, .definitionHalted beats definitions⟩
  obtain ⟨named, rest, hsplit, hnamed, hrest⟩ :=
    exists_named_append ts (placements (measureTimeline (keptAfter m)) ts)
  obtain ⟨p, placed⟩ := exists_settles_or_haltsAt prompter .ofPlacements (calls m ++ calls b) named
  have before : DefinitionsSettled prompter ts ⟨m, b, p⟩ := ⟨beats, definitions⟩
  have hdefined (h : p.map Ruling.declaration <+: named) :
      ∀ r ∈ p, Defines ts r.declaration.key := fun r hr =>
    hnamed _ (h.subset (List.mem_map_of_mem hr))
  rcases placed with placed | ⟨d, placed⟩
  · have defined := hdefined (placed.complete ▸ List.prefix_rfl)
    cases rest with
    | nil =>
      rw [List.append_nil] at hsplit
      exact ⟨_, _, .settled before (hsplit.symm ▸ placed) defined⟩
    | cons d rest => exact ⟨_, _, .undefinedBpm before hsplit placed defined (hrest d rfl)⟩
  · have hall : named <+: placements (measureTimeline (keptAfter m)) ts := ⟨rest, hsplit.symm⟩
    exact ⟨_, _, .placementHalted before ⟨placed.ruled, placed.upTo.trans hall, placed.last⟩
      (hdefined placed.upTo)⟩

/-! ## What a course comes to -/

theorem ofTokens_of_stops {e : Spanned ParseError} {prompts : List (Prompt α)}
    {warnings : List (Spanned Warning)}
    (h : Stops (resolve prompter ts) .empty e (.ofHistory prompts warnings)) :
    ofTokens prompter ts = ⟨prompts, .error e⟩ := by
  unfold ofTokens
  rw [show (resolve prompter ts).run.run .empty = (.error e, .ofHistory prompts warnings) from h]
  simp [Log.ofHistory, Except.map]

theorem ofTokens_of_yields {song : Song α} {prompts : List (Prompt α)}
    {warnings : List (Spanned Warning)}
    (h : Yields (resolve prompter ts) .empty song (.ofHistory prompts warnings)) :
    ofTokens prompter ts = ⟨prompts, .ok ⟨song, warnings⟩⟩ := by
  unfold ofTokens
  rw [show (resolve prompter ts).run.run .empty = (.ok song, .ofHistory prompts warnings) from h]
  simp [Log.ofHistory, Except.map]

/-- What is put together when the definitions are settled. -/
def collectedAfter (ts : List (Spanned (Token α))) (r : Rulings α) : Collected α where
  info := songInfo ts
  defined := keptAfter r.definitions
  placements := (placements r.measures ts).toArray
  lines := (laneLines r.measures ts).toArray

/-- The log when the definitions are settled. -/
def logBefore (r : Rulings α) : Log α :=
  .ofHistory (calls r.beats ++ calls r.definitions)
    (duplicateWarnings r.beats ++ duplicateWarnings r.definitions)

theorem DefinitionsSettled.resolve_run (h : DefinitionsSettled prompter ts r) :
    (resolve prompter ts).run.run .empty =
      (assembleSong prompter r.measures (collectedAfter ts r)).run.run (logBefore r) := by
  have hbeats : Yields (settle prompter .beatsPerMeasure (beatsDeclarations ts)) (.ofHistory [] [])
      (keptAfter r.beats) (.after [] [] r.beats) := h.beats.yields
  have hdefinitions : Yields (settle prompter .bpmDefinition (bpmDeclarations ts))
      (.after [] [] r.beats) (keptAfter r.definitions) (logBefore r) := h.definitions.yields
  rw [resolve_eq_stages, show (Log.empty : Log α) = .ofHistory [] [] from rfl, hbeats.run_bind_eq,
    hdefinitions.run_bind_eq]
  rfl

section Assembly

variable {c : Collected α} {measures : MeasureTimeline α} {placed : Kept BpmId (Placement α)}
  {log log' : Log α}

theorem stops_assembleSong_of_nonPositive {id : BpmId} {bpm : Spanned (Finite α)}
    (hplaced : Yields (settlePlacements prompter c.defined c.placements.toList) log placed log')
    (h : LowestNonPositive c.defined id bpm) :
    Stops (assembleSong prompter measures c) log ⟨.nonPositiveBpm id, bpm.span⟩ log' :=
  .bind_of_yields hplaced (h.stops log').bind

variable {defs : List (Definition α)} {prompts : List (Prompt α)} {warnings : List (Spanned Warning)}

theorem stops_assembleSong_of_nil
    (hplaced : Yields (settlePlacements prompter c.defined c.placements.toList) log placed log')
    (hdefs : c.defined.toList = []) :
    Stops (assembleSong prompter measures c) log ⟨.noBpmDefinition, ⟨0, 0⟩⟩ log' := by
  have hyields : Yields (definitions c.defined) log' [] log' := by
    apply yields_definitions
    rw [hdefs, List.map_nil]
  exact .bind_of_yields hplaced (.bind_of_yields hyields (stops_settleChanges placed log').bind)

/-- The song of a chart whose tempo is known. -/
def songOf (c : Collected α) (tempo : BpmTimeline α) (measures : MeasureTimeline α) : Song α where
  info := c.info
  notes := (placeNotes tempo (assemble c.lines.toList).notes).toArray
  tempo := tempo
  measures := measures
  measureSeconds := placeMeasures tempo measures

theorem yields_assembleSong {tempo : BpmTimeline α}
    (hplaced : Yields (settlePlacements prompter c.defined c.placements.toList) log placed
      (.ofHistory prompts warnings))
    (hdefs : defs.map Definition.entry = c.defined.toList)
    (hnamed : ∀ id ∈ placed, ∃ d ∈ defs, d.id = id)
    (htempo : BpmTimeline.ofChanges? (tempoChanges defs placed).1 c.info.waveOffset = some tempo) :
    Yields (assembleSong prompter measures c) log (songOf c tempo measures)
      (.ofHistory prompts
        (warnings ++ (tempoChanges defs placed).2 ++ (assemble c.lines.toList).warnings)) := by
  have hchanges : (tempoChanges defs placed).1 ≠ [] := by
    intro hnil
    rw [BpmTimeline.ofChanges?_eq_none_iff.2 hnil] at htempo
    cases htempo
  have hsettled := yields_settleChanges defs placed (ne_nil_of_tempoChanges defs placed hchanges) hnamed
    prompts warnings
  refine hplaced.bind ((yields_definitions hdefs _).bind (hsettled.bind ?_))
  rw [htempo]
  exact (Yields.warn _ prompts _).bind rfl

end Assembly

theorem DefinitionsSettled.forall_mem (h : DefinitionsSettled prompter ts r)
    (defined : ∀ p ∈ r.placements, Defines ts p.declaration.key) :
    ∀ d ∈ r.placements.map Ruling.declaration, d.key ∈ keptAfter r.definitions := by
  intro d hd
  obtain ⟨p, hp, rfl⟩ := List.mem_map.1 hd
  exact h.mem_iff.2 (defined p hp)

/-- The placements are settled when nothing stops the course. -/
theorem Course.yields_placements (h : Course prompter ts r none) :
    Yields (settlePlacements prompter (keptAfter r.definitions) (placements r.measures ts))
      (logBefore r) (keptAfter r.placements) r.log := by
  cases h with
  | settled before placements defined =>
    rw [← placements.complete, settlePlacements_eq_settle (before.forall_mem defined),
      placements.complete]
    exact placements.yields

/-- An error that stops the course is the error of the reading. -/
theorem Course.stops {e : Spanned ParseError} (h : Course prompter ts r (some e)) :
    Stops (resolve prompter ts) .empty e r.log := by
  have hlog : (Log.empty : Log α) = .ofHistory [] [] := rfl
  cases h with
  | beatsHalted beats =>
    rw [resolve_eq_stages, hlog, Rulings.log_beats]
    exact beats.stops.bind
  | @definitionHalted m b d beats definitions =>
    have hbeats : Yields (settle prompter .beatsPerMeasure (beatsDeclarations ts)) (.ofHistory [] [])
        (keptAfter m) (.after [] [] m) := beats.yields
    rw [resolve_eq_stages, hlog, Rulings.log_definitions]
    exact .bind_of_yields hbeats definitions.stops.bind
  | @placementHalted _ d before placements defined =>
    obtain ⟨rest, hsplit⟩ := placements.upTo
    have halted : HaltsAt prompter .ofPlacements (calls r.beats ++ calls r.definitions)
        (r.placements.map Ruling.declaration) r.placements d :=
      ⟨placements.ruled, List.prefix_rfl, placements.last⟩
    have hstop : Stops
        (settlePlacements prompter (keptAfter r.definitions) (Token.placements r.measures ts))
        (logBefore r) ⟨.halted, d.span⟩ r.log := by
      rw [← hsplit, settlePlacements_append (before.forall_mem defined)]
      exact halted.stops.bind
    exact before.resolve_run.trans hstop.bind
  | @undefinedBpm _ ds d rest before split placements defined undefined =>
    have hcontains : ¬ (keptAfter r.definitions).contains d.key = true := fun h =>
      undefined (before.mem_iff.1 (Std.TreeMap.mem_iff_contains.2 h))
    have hstop : Stops
        (settlePlacements prompter (keptAfter r.definitions) (Token.placements r.measures ts))
        (logBefore r) ⟨.undefinedBpm d.key, d.span⟩ r.log := by
      rw [split, settlePlacements_append (placements.complete ▸ before.forall_mem defined)]
      refine .bind_of_yields placements.yields ?_
      rw [List.foldlM_cons, if_neg hcontains]
      rfl
    exact before.resolve_run.trans hstop.bind

namespace Course

theorem ofTokens_of_stopped {e : Spanned ParseError} (h : Course prompter ts r (some e)) :
    ofTokens prompter ts = ⟨r.calls, .error e⟩ :=
  ofTokens_of_stops h.stops

/-! When nothing stops the course, the reading goes on with the definitions kept. -/

theorem definitionsSettled (h : Course prompter ts r none) : DefinitionsSettled prompter ts r := by
  cases h with
  | settled before placements defined => exact before

theorem placementsSettled (h : Course prompter ts r none) :
    Settles prompter .ofPlacements (calls r.beats ++ calls r.definitions) (placements r.measures ts)
      r.placements := by
  cases h with
  | settled before placements defined => exact placements

theorem ofTokens_of_nonPositive (h : Course prompter ts r none) {id : BpmId}
    {bpm : Spanned (Finite α)} (hbpm : LowestNonPositive (keptAfter r.definitions) id bpm) :
    ofTokens prompter ts = ⟨r.calls, .error ⟨.nonPositiveBpm id, bpm.span⟩⟩ :=
  ofTokens_of_stops (h.definitionsSettled.resolve_run.trans
    (stops_assembleSong_of_nonPositive h.yields_placements hbpm))

theorem ofTokens_of_undefined (h : Course prompter ts r none) (hnone : ∀ id, ¬ Defines ts id) :
    ofTokens prompter ts = ⟨r.calls, .error ⟨.noBpmDefinition, ⟨0, 0⟩⟩⟩ := by
  have hnil : (keptAfter r.definitions).toList = [] := by
    refine List.eq_nil_iff_forall_not_mem.2 fun e he => ?_
    have hkept := Std.TreeMap.mem_toList_iff_getElem?_eq_some.1 he
    exact hnone e.1 (h.definitionsSettled.mem_iff.1 (Std.TreeMap.getElem?_eq_some_iff.1 hkept).1)
  exact ofTokens_of_stops (h.definitionsSettled.resolve_run.trans
    (stops_assembleSong_of_nil h.yields_placements hnil))

/-- Names that are defined are those of the definitions kept. -/
theorem exists_definition (h : Course prompter ts r none) {defs : List (Definition α)}
    (hdefs : defs.map Definition.entry = (keptAfter r.definitions).toList) {id : BpmId}
    (hid : Defines ts id) : ∃ d ∈ defs, d.id = id := by
  have hkept := h.definitionsSettled.mem_iff.2 hid
  have hentry := Std.TreeMap.mem_toList_iff_getElem?_eq_some.2
    (Std.TreeMap.getElem?_eq_some_getElem hkept)
  rw [← hdefs] at hentry
  obtain ⟨d, hd, heq⟩ := List.mem_map.1 hentry
  exact ⟨d, hd, congrArg Prod.fst heq⟩

/-- Names that are placed are those of definitions kept. -/
theorem exists_definition_of_placed (h : Course prompter ts r none) {defs : List (Definition α)}
    (hdefs : defs.map Definition.entry = (keptAfter r.definitions).toList) :
    ∀ id ∈ keptAfter r.placements, ∃ d ∈ defs, d.id = id := by
  intro id hplaced
  refine h.exists_definition hdefs ?_
  cases h with
  | settled before placements defined =>
    obtain ⟨p, hp, rfl⟩ := placements.ruled.mem_keptAfter_iff.1 hplaced
    exact defined p hp

theorem ofTokens_of_tempo (h : Course prompter ts r none) {defs : List (Definition α)}
    {tempo : BpmTimeline α} (hdefs : defs.map Definition.entry = (keptAfter r.definitions).toList)
    (htempo : BpmTimeline.ofChanges? (tempoChanges defs (keptAfter r.placements)).1
      (songInfo ts).waveOffset = some tempo) :
    ofTokens prompter ts = ⟨r.calls, .ok ⟨songOf (collectedAfter ts r) tempo r.measures,
      r.duplicateWarnings ++ (tempoChanges defs (keptAfter r.placements)).2 ++
        (assemble (laneLines r.measures ts)).warnings⟩⟩ :=
  ofTokens_of_yields (h.definitionsSettled.resolve_run.trans
    (yields_assembleSong h.yields_placements hdefs (h.exists_definition_of_placed hdefs) htempo))

/-- Once some token defines a name, there is a change of tempo. -/
theorem tempoChanges_ne_nil (h : Course prompter ts r none) {defs : List (Definition α)} {id : BpmId}
    (hdefs : defs.map Definition.entry = (keptAfter r.definitions).toList) (hid : Defines ts id) :
    (tempoChanges defs (keptAfter r.placements)).1 ≠ [] := by
  obtain ⟨d, hd, -⟩ := h.exists_definition hdefs hid
  exact RhythmChart.tempoChanges_ne_nil (List.ne_nil_of_mem hd) (h.exists_definition_of_placed hdefs)

/-- When nothing stops the course, the reading fails on a definition that is not above zero, or for want
of any definition, or it has a tempo. -/
theorem cases (h : Course prompter ts r none) :
    (∃ id bpm, LowestNonPositive (keptAfter r.definitions) id bpm) ∨ (∀ id, ¬ Defines ts id) ∨
      ∃ (defs : List (Definition α)) (tempo : BpmTimeline α),
        defs.map Definition.entry = (keptAfter r.definitions).toList ∧
        BpmTimeline.ofChanges? (tempoChanges defs (keptAfter r.placements)).1
          (songInfo ts).waveOffset = some tempo := by
  rcases definitions_cases (keptAfter r.definitions) with ⟨defs, hdefs⟩ | hbpm
  · by_cases hnone : ∀ id, ¬ Defines ts id
    · exact .inr (.inl hnone)
    · obtain ⟨id, hid⟩ := not_forall_not.1 hnone
      have hchanges := h.tempoChanges_ne_nil hdefs hid
      obtain ⟨tempo, htempo⟩ := BpmTimeline.exists_ofChanges? hchanges (songInfo ts).waveOffset
      exact .inr (.inr ⟨defs, tempo, hdefs, htempo⟩)
  · exact .inl hbpm

theorem prompts_eq {e : Option (Spanned ParseError)} (h : Course prompter ts r e) :
    (ofTokens prompter ts).prompts = r.calls := by
  cases e with
  | some e => rw [h.ofTokens_of_stopped]
  | none =>
    rcases h.cases with ⟨id, bpm, hbpm⟩ | hnone | ⟨defs, tempo, hdefs, htempo⟩
    · rw [h.ofTokens_of_nonPositive hbpm]
    · rw [h.ofTokens_of_undefined hnone]
    · rw [h.ofTokens_of_tempo hdefs htempo]

/-- The warnings about repetitions are about the keys of the declarations, group by group. -/
theorem duplicateWarnings_eq (h : Course prompter ts r none) : r.duplicateWarnings =
    warningsAbout .duplicateBeatsPerMeasure r.beats ++
      warningsAbout .duplicateBpmDefinition r.definitions ++
      warningsAbout .duplicateBpmPlacement r.placements := by
  have settled := h.definitionsSettled
  rw [Rulings.duplicateWarnings, settled.beats.ruled.duplicateWarnings_eq fun _ _ _ => rfl,
    settled.definitions.ruled.duplicateWarnings_eq fun _ _ _ => rfl,
    h.placementsSettled.ruled.duplicateWarnings_eq fun _ _ _ => rfl]

/-- An accepted chart is that of the values kept. -/
theorem eq_of_ok {e : Option (Spanned ParseError)} (h : Course prompter ts r e)
    {chart : Chart α} (hok : (ofTokens prompter ts).result = .ok chart) :
    e = none ∧ ∃ (defs : List (Definition α)) (tempo : BpmTimeline α),
      defs.map Definition.entry = (keptAfter r.definitions).toList ∧
      BpmTimeline.ofChanges? (tempoChanges defs (keptAfter r.placements)).1
        (songInfo ts).waveOffset = some tempo ∧
      chart = ⟨songOf (collectedAfter ts r) tempo r.measures,
        r.duplicateWarnings ++ (tempoChanges defs (keptAfter r.placements)).2 ++
          (assemble (laneLines r.measures ts)).warnings⟩ := by
  cases e with
  | some e =>
    rw [h.ofTokens_of_stopped] at hok
    cases hok
  | none =>
    rcases h.cases with ⟨id, bpm, hbpm⟩ | hnone | ⟨defs, tempo, hdefs, htempo⟩
    · rw [h.ofTokens_of_nonPositive hbpm] at hok
      cases hok
    · rw [h.ofTokens_of_undefined hnone] at hok
      cases hok
    · rw [h.ofTokens_of_tempo hdefs htempo] at hok
      cases hok
      exact ⟨rfl, defs, tempo, hdefs, htempo, rfl⟩

end Course

/-! ## Accepted charts -/

/-- Each topic has its own part of the warnings. -/
theorem filter_topic_warnings (r : Rulings α) (defs : List (Definition α)) (lines : List (LaneLine α))
    (topic : Warning.Topic) :
    ((r.duplicateWarnings ++ (tempoChanges defs (keptAfter r.placements)).2 ++
      (assemble lines).warnings).filter fun w => w.content.topic = topic) =
      match topic with
      | .repetition => r.duplicateWarnings
      | .tempo => (tempoChanges defs (keptAfter r.placements)).2
      | .slide => (assemble lines).warnings := by
  have hduplicates (w : Spanned Warning) (hw : w ∈ r.duplicateWarnings) :=
    Rulings.topic_of_mem_duplicateWarnings hw
  have htempo (w : Spanned Warning) (hw : w ∈ (tempoChanges defs (keptAfter r.placements)).2) :=
    topic_of_mem_tempoChanges hw
  have hslides := Assembly.onSlides_assemble lines
  rw [List.filter_append, List.filter_append, Warning.filter_topic hduplicates,
    Warning.filter_topic htempo, Warning.filter_topic hslides]
  cases topic <;> simp

/-- Whether a chart is accepted can be computed. -/
theorem exists_eq_ok_of_isOk {ε : Type} {x : Except ε (Chart α)} (h : x.isOk = true) :
    ∃ chart, x = .ok chart := by
  cases x with
  | error e => cases h
  | ok chart => exact ⟨chart, rfl⟩

/-- What an accepted chart is made of: the rulings on its declarations, and the definitions kept. -/
structure MadeOf (prompter : Prompter α) (ts : List (Spanned (Token α))) (r : Rulings α)
    (defs : List (Definition α)) (chart : Chart α) : Prop where
  course : Course prompter ts r none
  entries : defs.map Definition.entry = (keptAfter r.definitions).toList
  info : chart.song.info = songInfo ts
  measures : chart.song.measures = r.measures
  tempo : BpmTimeline.ofChanges? (tempoChanges defs (keptAfter r.placements)).1
    (songInfo ts).waveOffset = some chart.song.tempo
  measureSeconds : chart.song.measureSeconds = placeMeasures chart.song.tempo r.measures
  notes : chart.song.notes.toList =
    placeNotes chart.song.tempo (assemble (laneLines r.measures ts)).notes
  warnings : chart.warnings =
    r.duplicateWarnings ++ (tempoChanges defs (keptAfter r.placements)).2 ++
      (assemble (laneLines r.measures ts)).warnings

theorem Course.exists_madeOf {e : Option (Spanned ParseError)} (course : Course prompter ts r e)
    {chart : Chart α} (h : (ofTokens prompter ts).result = .ok chart) :
    e = none ∧ ∃ defs, MadeOf prompter ts r defs chart := by
  obtain ⟨rfl, defs, tempo, hdefs, htempo, rfl⟩ := course.eq_of_ok h
  exact ⟨rfl, defs, course, hdefs, rfl, rfl, htempo, rfl, by simp [songOf, collectedAfter], rfl⟩

theorem exists_madeOf {chart : Chart α} (h : (ofTokens prompter ts).result = .ok chart) :
    ∃ r defs, MadeOf prompter ts r defs chart := by
  obtain ⟨r, e, course⟩ := exists_course prompter ts
  obtain ⟨rfl, defs, m⟩ := course.exists_madeOf h
  exact ⟨r, defs, m⟩

namespace MadeOf

variable {defs : List (Definition α)} {chart : Chart α}

/-- The song is that of what was collected, with its tempo and its measures. -/
theorem song_eq (m : MadeOf prompter ts r defs chart) :
    chart.song = songOf (collectedAfter ts r) chart.song.tempo r.measures := by
  obtain ⟨⟨info, notes, tempo, measures, seconds, hlength⟩, warnings⟩ := chart
  obtain rfl : measures = r.measures := m.measures
  obtain rfl : info = songInfo ts := m.info
  obtain rfl : seconds = placeMeasures tempo r.measures := m.measureSeconds
  obtain rfl : notes = (placeNotes tempo (assemble (laneLines r.measures ts)).notes).toArray :=
    Array.ext' m.notes
  rfl

/-- The changes of tempo are those of the definitions and placements kept, in another order. -/
theorem perm_changes (m : MadeOf prompter ts r defs chart) :
    chart.song.changes ~ (tempoChanges defs (keptAfter r.placements)).1 := by
  rw [Song.changes, BpmTimeline.map_change_ofChanges? m.tempo]
  exact List.mergeSort_perm _ _

/-- There is a change of tempo: a timeline is never made of none. -/
theorem changes_ne_nil (m : MadeOf prompter ts r defs chart) : chart.song.changes ≠ [] := by
  intro hnil
  have hchanges := m.perm_changes
  have htempo := m.tempo
  rw [hnil] at hchanges
  rw [BpmTimeline.ofChanges?_eq_none_iff.2 hchanges.nil_eq.symm] at htempo
  cases htempo

/-- The changes of beats per measure are those kept. -/
theorem changes_measures (m : MadeOf prompter ts r defs chart) :
    chart.song.measures.knots.toList.map Knot.change =
      if (keptAfter r.beats).isEmpty then [⟨((0 : Nat) : α), .four⟩] else measureChanges (keptAfter r.beats) := by
  rw [m.measures]
  exact changes_measureTimeline _

/-- The changes of beats per measure, each at the seconds of its beat. -/
theorem measureAnchors_eq (m : MadeOf prompter ts r defs chart) : chart.song.measureAnchors =
    r.measures.knots.toList.map fun k => ⟨k.change, k.value, chart.song.tempo.seconds k.value⟩ := by
  rw [Song.measureAnchors, m.measures, m.measureSeconds, placeMeasures, ← List.map_prod_left_eq_zip,
    List.map_map]
  rfl

/-- The warnings of a chart on one topic. -/
theorem filter_warnings (m : MadeOf prompter ts r defs chart) (topic : Warning.Topic) :
    (chart.warnings.filter fun w => w.content.topic = topic) =
      match topic with
      | .repetition => r.duplicateWarnings
      | .tempo => (tempoChanges defs (keptAfter r.placements)).2
      | .slide => (assemble (laneLines r.measures ts)).warnings := by
  rw [m.warnings, filter_topic_warnings]

end MadeOf

end Chart

end RhythmChart
