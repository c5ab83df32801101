import RhythmChart.Proofs.Course

/-!
# Repeated declarations of a chart

One law holds for the three kinds of keys: the tracks of beats per measure, the names of BPM definitions
and the names of placements.  `ofTokens_rules_repetitions` says that the calls of the prompter are those of
the rulings, group by group, that none follows one that halts, and that a chart that is accepted has the
warnings that the answers ask for and the song of the values kept (`Follows`).
-/

open scoped List

namespace RhythmChart

variable {α : Type} [Scalar α]

def Warning.isDuplicate : Warning → Bool
  | .duplicateBpmDefinition _ => true
  | .duplicateBpmPlacement _ => true
  | .duplicateBeatsPerMeasure _ => true
  | .unclosedSlide _ _ => false
  | .unmatchedSlideEnd _ _ => false
  | .unplacedBpm _ => false
  | .implicitInitialBpm _ => false

theorem Warning.isDuplicate_eq (w : Warning) : w.isDuplicate = decide (w.topic = .repetition) := by
  cases w <;> rfl

/-! ## The law -/

theorem mem_dropLast_append {β : Type} {xs ys : List β} {x : β} (h : x ∈ (xs ++ ys).dropLast) :
    x ∈ xs ∨ x ∈ ys.dropLast := by
  rw [List.dropLast_append] at h
  split at h
  · exact .inl (List.mem_of_mem_dropLast h)
  · exact List.mem_append.1 h

namespace Chart

open Token

variable {prompter : Prompter α} {ts : List (Spanned (Token α))} {r : Rulings α}

theorem DefinitionsSettled.choice_ne_halt (h : DefinitionsSettled prompter ts r) :
    ∀ q ∈ calls r.beats ++ calls r.definitions, q.choice ≠ .halt := by
  intro q hq
  rcases List.mem_append.1 hq with hq | hq
  · exact h.beats.choice_ne_halt q hq
  · exact h.definitions.choice_ne_halt q hq

/-- After a call that halts there is no other one. -/
theorem Course.choice_ne_halt {e : Option (Spanned ParseError)} (h : Course prompter ts r e) :
    ∀ q ∈ r.calls.dropLast, q.choice ≠ .halt := by
  intro q hq
  cases h with
  | beatsHalted beats =>
    simp only [Rulings.calls, calls, List.filterMap_nil, List.append_nil] at hq
    exact beats.choice_ne_halt q hq
  | definitionHalted beats definitions =>
    simp only [Rulings.calls, calls, List.filterMap_nil, List.append_nil] at hq
    rcases mem_dropLast_append hq with hq | hq
    · exact beats.choice_ne_halt q hq
    · exact definitions.choice_ne_halt q hq
  | placementHalted before placements _ =>
    rcases mem_dropLast_append hq with hq | hq
    · exact before.choice_ne_halt q hq
    · exact placements.choice_ne_halt q hq
  | undefinedBpm before _ placements _ _ =>
    rcases mem_dropLast_append hq with hq | hq
    · exact before.choice_ne_halt q hq
    · exact placements.choice_ne_halt q (List.mem_of_mem_dropLast hq)
  | settled before placements _ =>
    rcases mem_dropLast_append hq with hq | hq
    · exact before.choice_ne_halt q hq
    · exact placements.choice_ne_halt q (List.mem_of_mem_dropLast hq)

/-- Without an error there are as many calls as declarations less the distinct keys of each kind. -/
theorem Course.length_calls (h : Course prompter ts r none) :
    r.calls.length + (keysOf tracks ts).toFinset.card + (keysOf definedNames ts).toFinset.card +
        (keysOf placedNames ts).toFinset.card =
      (keysOf tracks ts).length + (keysOf definedNames ts).length + (keysOf placedNames ts).length := by
  have written := declared r.measures ts
  have hbeats := h.definitionsSettled.beats.length_calls
  have hdefinitions := h.definitionsSettled.definitions.length_calls
  have hplacements := h.placementsSettled.length_calls
  rw [← List.length_map Declaration.key, written.tracks.map_key] at hbeats
  rw [← List.length_map Declaration.key, written.definedNames.map_key] at hdefinitions
  rw [← List.length_map Declaration.key, written.placedNames.map_key] at hplacements
  rw [Rulings.calls, List.length_append, List.length_append]
  omega

/-- What an accepted chart makes of the rulings on its declarations. -/
structure Follows (ts : List (Spanned (Token α))) (r : Rulings α) (chart : Chart α) : Prop where
  /-- There are as many calls as declarations, less the distinct keys of each kind. -/
  length_calls :
    r.calls.length + (keysOf tracks ts).toFinset.card + (keysOf definedNames ts).toFinset.card +
        (keysOf placedNames ts).toFinset.card =
      (keysOf tracks ts).length + (keysOf definedNames ts).length + (keysOf placedNames ts).length
  /-- The warnings about repetitions are those that the answers ask for. -/
  warnings : chart.warnings.filter (fun w => w.content.isDuplicate) =
    warningsAbout .duplicateBeatsPerMeasure r.beats ++
      warningsAbout .duplicateBpmDefinition r.definitions ++
      warningsAbout .duplicateBpmPlacement r.placements
  /-- The measures have the beats kept, or four beats where none are declared. -/
  beats : chart.song.measures.knots.toList.map Knot.change =
    if (keptAfter r.beats).isEmpty then [⟨((0 : Nat) : α), .four⟩]
    else (keptAfter r.beats).toList.map fun (track, beats) => ⟨(track.number : α), beats.content⟩
  /-- The tempo has the definitions kept, each at the beat of the placement kept for its name. -/
  changes : ∃ defs : List (Definition α), defs.map Definition.entry = (keptAfter r.definitions).toList ∧
    chart.song.changes ~ (tempoChanges defs (keptAfter r.placements)).1 ∧
    BpmTimeline.ofChanges? (tempoChanges defs (keptAfter r.placements)).1 (songInfo ts).waveOffset =
      some chart.song.tempo
  /-- All of the song is made of the values kept. -/
  song : chart.song = songOf (collectedAfter ts r) chart.song.tempo r.measures

theorem MadeOf.follows {defs : List (Definition α)} {chart : Chart α}
    (m : MadeOf prompter ts r defs chart) : Follows ts r chart where
  length_calls := m.course.length_calls
  warnings := by
    simp only [Warning.isDuplicate_eq]
    exact (m.filter_warnings .repetition).trans m.course.duplicateWarnings_eq
  beats := m.changes_measures
  changes := ⟨defs, m.entries, m.perm_changes, m.tempo⟩
  song := m.song_eq

/-- A chart is read by rulings on the declarations that its lines write, group by group: the calls of the
prompter are theirs, and none follows one that halts.  An accepted chart is what the rulings make. -/
theorem ofTokens_rules_repetitions (prompter : Prompter α) (ts : List (Spanned (Token α))) :
    ∃ (r : Rulings α) (e : Option (Spanned ParseError)),
      Declared r.measures ts (beatsDeclarations ts) (bpmDeclarations ts) (placements r.measures ts) ∧
      Course prompter ts r e ∧
      (∀ error, e = some error → (ofTokens prompter ts).result = .error error) ∧
      (ofTokens prompter ts).prompts = calls r.beats ++ calls r.definitions ++ calls r.placements ∧
      (∀ q ∈ (ofTokens prompter ts).prompts.dropLast, q.choice ≠ .halt) ∧
      ∀ chart, (ofTokens prompter ts).result = .ok chart → e = none ∧ Follows ts r chart := by
  obtain ⟨r, e, course⟩ := exists_course prompter ts
  refine ⟨r, e, declared r.measures ts, course, ?_, course.prompts_eq, ?_, fun chart hok => ?_⟩
  · rintro error rfl
    rw [course.ofTokens_of_stopped]
  · rw [course.prompts_eq]
    exact course.choice_ne_halt
  · obtain ⟨rfl, defs, m⟩ := course.exists_madeOf hok
    exact ⟨rfl, m.follows⟩

end Chart

end RhythmChart
