import RhythmChart.Proofs.DeclarationOrder
import RhythmChart.Proofs.Definitions

/-!
# Declarations of different keys in any order

A prompter is `Steady` if it forgets its earlier calls and never halts.  Then the rulings on one key are
those on the declarations of that key alone (`Ruled.filter_key`), so declarations of different keys can
change places: the values kept are the same, and the warnings are the same up to their order.
`ofTokens_of_sameDeclarations` carries this to charts read with one answer to all questions.
-/

open scoped List

namespace RhythmChart

variable {α : Type} [Scalar α]

/-! ## Prompters without a memory -/

/-- The prompter answers a question the same way whatever came before, and never halts. -/
structure Prompter.Steady (prompter : Prompter α) : Prop where
  forgets : ∀ earlier duplication, prompter earlier duplication = prompter [] duplication
  goes : ∀ earlier duplication, prompter earlier duplication ≠ .halt

theorem Prompter.steady_always (version : Version) (warned : Bool) :
    (always (.keep version warned) : Prompter α).Steady :=
  ⟨fun _ _ => rfl, fun _ _ => Choice.noConfusion⟩

theorem Prompter.Steady.call_eq {prompter : Prompter α} (h : prompter.Steady)
    (earlier earlier' : List (Prompt α)) (duplication : Duplication α) :
    prompter.call earlier duplication = prompter.call earlier' duplication := by
  rw [call, call, h.forgets, h.forgets earlier'.reverse]

/-! ## Declarations of one key -/

section Keys

variable {κ ν : Type} [DecidableEq κ]

/-- The declarations of a key, in order. -/
def declarationsOf (k : κ) (ds : List (Declaration κ ν)) : List (Declaration κ ν) :=
  ds.filter fun d => d.key = k

/-- Each key has the same declarations in the same order. -/
def SameByKey (ds ds' : List (Declaration κ ν)) : Prop :=
  ∀ k, declarationsOf k ds = declarationsOf k ds'

/-- Lists with the same elements of each key have the same elements. -/
theorem perm_of_filter_key {β : Type} (key : β → κ) {xs ys : List β}
    (h : ∀ k, (xs.filter fun x => key x = k) = ys.filter fun y => key y = k) : xs ~ ys := by
  classical
  refine List.perm_iff_count.2 fun x => ?_
  have hkey : decide (key x = key x) = true := decide_eq_true rfl
  rw [← List.count_filter (p := fun y => key y = key x) hkey, h,
    List.count_filter (p := fun y => key y = key x) hkey]

namespace SameByKey

variable {ds ds' : List (Declaration κ ν)}

theorem symm (h : SameByKey ds ds') : SameByKey ds' ds := fun k => (h k).symm

theorem mem_iff (h : SameByKey ds ds') {d : Declaration κ ν} : d ∈ ds ↔ d ∈ ds' :=
  (perm_of_filter_key Declaration.key h).mem_iff

/-- Values can be changed one by one. -/
theorem map {μ : Type} (h : SameByKey ds ds') (f : ν → μ) :
    SameByKey (ds.map fun d => ⟨d.key, f d.value, d.span⟩) (ds'.map fun d => ⟨d.key, f d.value, d.span⟩) := by
  intro k
  have hmap (ds : List (Declaration κ ν)) :
      declarationsOf k (ds.map fun d => (⟨d.key, f d.value, d.span⟩ : Declaration κ μ)) =
        (declarationsOf k ds).map fun d => ⟨d.key, f d.value, d.span⟩ := by
    rw [declarationsOf, declarationsOf, List.filter_map]
    rfl
  rw [hmap, hmap, h k]

end SameByKey

/-! ## Rulings on one key -/

variable {prompter : Prompter α} {ask : κ → ν → ν → Duplication α} {earlier earlier' : List (Prompt α)}
  {rs rs' : List (Ruling α κ ν)}

/-- The rulings on the declarations of a key. -/
def rulingsOn (k : κ) (rs : List (Ruling α κ ν)) : List (Ruling α κ ν) :=
  rs.filter fun r => r.declaration.key = k

theorem map_declaration_rulingsOn (k : κ) (rs : List (Ruling α κ ν)) :
    (rulingsOn k rs).map Ruling.declaration = declarationsOf k (rs.map Ruling.declaration) := by
  rw [rulingsOn, declarationsOf, List.filter_map]
  rfl

theorem rulingsOn_concat_self {k : κ} {r : Ruling α κ ν} (h : r.declaration.key = k) :
    rulingsOn k (rs ++ [r]) = rulingsOn k rs ++ [r] := by
  rw [rulingsOn, List.filter_append, List.filter_singleton, decide_eq_true h]
  rfl

theorem rulingsOn_concat_of_ne {k : κ} {r : Ruling α κ ν} (h : r.declaration.key ≠ k) :
    rulingsOn k (rs ++ [r]) = rulingsOn k rs := by
  rw [rulingsOn, List.filter_append, List.filter_singleton, decide_eq_false h]
  exact List.append_nil _

variable [Ord κ] [Std.TransOrd κ]

omit [DecidableEq κ] in
theorem getElem?_applyTo_self {k : κ} {r : Ruling α κ ν} (h : r.declaration.key = k)
    {kept kept' : Kept κ ν} (hkept : kept[k]? = kept'[k]?) :
    (r.applyTo kept)[k]? = (r.applyTo kept')[k]? := by
  unfold Ruling.applyTo
  split
  · rw [h, Std.TreeMap.getElem?_insert_self, Std.TreeMap.getElem?_insert_self]
  · exact hkept

variable [Std.LawfulEqOrd κ]

omit [DecidableEq κ] in
theorem getElem?_applyTo_of_ne {k : κ} {r : Ruling α κ ν} (h : r.declaration.key ≠ k)
    (kept : Kept κ ν) : (r.applyTo kept)[k]? = kept[k]? := by
  unfold Ruling.applyTo
  split
  · rw [Std.TreeMap.getElem?_insert, if_neg (mt Std.LawfulEqOrd.eq_of_compare h)]
  · rfl

/-- The value kept for a key depends on the rulings on it only. -/
theorem getElem?_keptAfter_rulingsOn (k : κ) (rs : List (Ruling α κ ν)) :
    (keptAfter (rulingsOn k rs))[k]? = (keptAfter rs)[k]? := by
  induction rs using List.reverseRecOn with
  | nil => rfl
  | append_singleton rs r ih =>
    by_cases hk : r.declaration.key = k
    · rw [rulingsOn_concat_self hk, keptAfter_concat, keptAfter_concat]
      exact getElem?_applyTo_self hk ih
    · rw [rulingsOn_concat_of_ne hk, keptAfter_concat, getElem?_applyTo_of_ne hk, ih]

/-- The rulings on one key follow the rules by themselves. -/
theorem Ruled.filter_key (steady : prompter.Steady) (h : Ruled prompter ask earlier rs) (k : κ) :
    Ruled prompter ask earlier' (rulingsOn k rs) := by
  have hsub {rs : List (Ruling α κ ν)} {p : Ruling α κ ν → Prop} (hp : ∀ r ∈ rs, p r) :
      ∀ r ∈ rulingsOn k rs, p r := fun r hr => hp r (List.mem_filter.1 hr).1
  induction h with
  | nil => exact .nil
  | @first rs d before going new ih =>
    by_cases hk : d.key = k
    · rw [rulingsOn_concat_self (r := ⟨d, none⟩) hk]
      exact ih.first (hsub going) (hsub new)
    · rw [rulingsOn_concat_of_ne (r := ⟨d, none⟩) hk]
      exact ih
  | @repeated rs d older before going holder ih =>
    by_cases hk : d.key = k
    · rw [rulingsOn_concat_self (by exact hk),
        steady.call_eq (earlier ++ calls rs) (earlier' ++ calls (rulingsOn k rs))]
      refine ih.repeated (hsub going) ?_
      rw [hk, getElem?_keptAfter_rulingsOn, ← hk, holder]
    · rw [rulingsOn_concat_of_ne (by exact hk)]
      exact ih

omit [DecidableEq κ] in
/-- The declarations decide the rulings. -/
theorem Ruled.unique (h : Ruled prompter ask earlier rs) (h' : Ruled prompter ask earlier rs')
    (heq : rs.map Ruling.declaration = rs'.map Ruling.declaration) : rs = rs' := by
  induction rs using List.reverseRecOn generalizing rs' with
  | nil => exact (List.map_eq_nil_iff.1 heq.symm).symm
  | append_singleton rs r ih =>
    rcases List.eq_nil_or_concat rs' with rfl | ⟨rs', r', rfl⟩
    · simp at heq
    rw [List.concat_eq_append] at h' heq ⊢
    rw [List.map_append, List.map_append] at heq
    obtain ⟨hinit, hlast⟩ := List.append_inj' heq rfl
    obtain ⟨before, -, hcall⟩ := h.of_concat
    obtain ⟨before', -, hcall'⟩ := h'.of_concat
    obtain rfl := ih before before' hinit
    obtain ⟨d, call⟩ := r
    obtain ⟨d', call'⟩ := r'
    obtain rfl : d = d' := List.singleton_inj.1 hlast
    dsimp only at hcall hcall'
    rcases hcall with ⟨hnone, rfl⟩ | ⟨older, hold, rfl⟩ <;>
      rcases hcall' with ⟨hnone', rfl⟩ | ⟨older', hold', rfl⟩
    · rfl
    · rw [hnone] at hold'
      cases hold'
    · rw [hnone'] at hold
      cases hold
    · rw [hold] at hold'
      cases hold'
      rfl

omit [DecidableEq κ] [Std.TransOrd κ] [Std.LawfulEqOrd κ] in
/-- Without answers that ask for a warning there is none. -/
theorem Ruled.duplicateWarnings_eq_nil {version : Version}
    (h : Ruled (.always (.keep version false)) ask earlier rs) : duplicateWarnings rs = [] := by
  induction h with
  | nil => rfl
  | first before going new ih =>
    rw [duplicateWarnings_concat, ih]
    rfl
  | repeated before going holder ih =>
    rw [duplicateWarnings_concat, ih]
    rfl

/-! ## Settling in another order -/

variable {ds ds' : List (Declaration κ ν)}

section

variable (steady : prompter.Steady) (same : SameByKey ds ds')
  (h : Settles prompter ask earlier ds rs) (h' : Settles prompter ask earlier' ds' rs')

include steady same h h'

theorem rulingsOn_eq (k : κ) : rulingsOn k rs = rulingsOn k rs' := by
  have hk : Ruled prompter ask [] (rulingsOn k rs) := h.ruled.filter_key steady k
  have hk' : Ruled prompter ask [] (rulingsOn k rs') := h'.ruled.filter_key steady k
  refine hk.unique hk' ?_
  rw [map_declaration_rulingsOn, map_declaration_rulingsOn, h.complete, h'.complete, same k]

/-- The same values are kept. -/
theorem keptAfter_equiv : (keptAfter rs).Equiv (keptAfter rs') := by
  refine .of_forall_constGet?_eq fun k => ?_
  rw [← getElem?_keptAfter_rulingsOn, rulingsOn_eq steady same h h', getElem?_keptAfter_rulingsOn]

/-- The same warnings are given, in some order. -/
theorem duplicateWarnings_perm : duplicateWarnings rs ~ duplicateWarnings rs' :=
  (perm_of_filter_key (fun r => r.declaration.key) (rulingsOn_eq steady same h h')).filterMap _

end

omit [DecidableEq κ] in
/-- A steady prompter never ends the settling. -/
theorem HaltsAt.not_steady {d : Declaration κ ν} (h : HaltsAt prompter ask earlier ds rs d) :
    ¬ prompter.Steady := by
  intro steady
  obtain ⟨before, r, rfl, -, halts, -⟩ := h.exists_before
  obtain ⟨-, -, ⟨-, hcall⟩ | ⟨older, -, hcall⟩⟩ := h.ruled.of_concat
  · rw [Ruling.Halts, Ruling.choice?, hcall] at halts
    cases halts
  · rw [Ruling.Halts, Ruling.choice?, hcall] at halts
    exact steady.goes _ _ (Option.some.inj halts)

end Keys

/-! ## Charts -/

namespace Chart

open Token

/-- The charts have the same declarations of each key, and the same other tokens that count. -/
structure SameDeclarations (ts ts' : List (Spanned (Token α))) : Prop where
  beats : SameByKey (beatsDeclarations ts) (beatsDeclarations ts')
  definitions : SameByKey (bpmDeclarations ts) (bpmDeclarations ts')
  placements : SameByKey (placementTimes ts) (placementTimes ts')
  lines : ofKind .laneLine ts = ofKind .laneLine ts'
  info : ∀ k ∈ TokenKind.ofInfo, ofKind k ts = ofKind k ts'

theorem tempoChanges_congr (defs : List (Definition α)) {placed placed' : Kept BpmId (Placement α)}
    (h : placed.Equiv placed') : tempoChanges defs placed = tempoChanges defs placed' := by
  simp only [tempoChanges, h.isEmpty_eq, h.getElem?_eq, h.contains_eq]

variable {prompter : Prompter α} {ts ts' : List (Spanned (Token α))} {r r' : Rulings α}
  {e e' : Option (Spanned ParseError)}

namespace SameDeclarations

theorem symm (same : SameDeclarations ts ts') : SameDeclarations ts' ts :=
  ⟨same.beats.symm, same.definitions.symm, same.placements.symm, same.lines.symm,
    fun k hk => (same.info k hk).symm⟩

theorem defines_iff (same : SameDeclarations ts ts') {id : BpmId} : Defines ts id ↔ Defines ts' id := by
  simp only [Token.defines_iff, same.definitions.mem_iff]

theorem laneLines_eq (same : SameDeclarations ts ts') (measures : MeasureTimeline α) :
    laneLines measures ts = laneLines measures ts' := by
  rw [← laneLines_ofKind, same.lines, laneLines_ofKind]

variable (steady : prompter.Steady) (same : SameDeclarations ts ts')

include steady same

theorem measures_eq (h : DefinitionsSettled prompter ts r) (h' : DefinitionsSettled prompter ts' r') :
    r.measures = r'.measures := by
  rw [Rulings.measures, Rulings.measures, measureTimeline, measureTimeline,
    (keptAfter_equiv steady same.beats h.beats h'.beats).toList_eq]

theorem placements_sameByKey (h : DefinitionsSettled prompter ts r)
    (h' : DefinitionsSettled prompter ts' r') :
    SameByKey (Token.placements r.measures ts) (Token.placements r'.measures ts') := by
  rw [same.measures_eq steady h h', Token.placements, Token.placements]
  exact same.placements.map fun time => (⟨time, r'.measures.beat time.measure⟩ : Placement α)

end SameDeclarations

/-- The course of a reading with a steady prompter stops only at a placement without a definition. -/
theorem Course.cases_of_steady (steady : prompter.Steady) (h : Course prompter ts r e) :
    DefinitionsSettled prompter ts r ∧
      (e = none ∨ ∃ d ∈ placements r.measures ts, ¬ Defines ts d.key) := by
  cases h with
  | beatsHalted beats => exact absurd steady beats.not_steady
  | definitionHalted beats definitions => exact absurd steady definitions.not_steady
  | placementHalted before placements defined => exact absurd steady placements.not_steady
  | undefinedBpm before split placements defined undefined =>
    exact ⟨before, .inr ⟨_, split ▸ by simp, undefined⟩⟩
  | settled before placements defined => exact ⟨before, .inl rfl⟩

theorem Course.defines_of_mem (h : Course prompter ts r none)
    {d : Declaration BpmId (Placement α)} (hd : d ∈ placements r.measures ts) : Defines ts d.key := by
  cases h with
  | settled before settled defined =>
    rw [← settled.complete] at hd
    obtain ⟨p, hp, rfl⟩ := List.mem_map.1 hd
    exact defined p hp

/-- If the course of one chart goes through, that of the other does. -/
theorem Course.eq_none_of_same (steady : prompter.Steady) (same : SameDeclarations ts ts')
    (h : Course prompter ts r none) (h' : Course prompter ts' r' e') : e' = none := by
  obtain ⟨before', hnone | ⟨d, hd, hundefined⟩⟩ := h'.cases_of_steady steady
  · exact hnone
  · have hsame := same.placements_sameByKey steady h.definitionsSettled before'
    exact absurd (same.defines_iff.1 (h.defines_of_mem (hsame.mem_iff.2 hd))) hundefined

section Accepted

variable (steady : prompter.Steady) (same : SameDeclarations ts ts') (course : Course prompter ts r none)
  (course' : Course prompter ts' r' none)

include steady same course course'

theorem definitions_equiv : (keptAfter r.definitions).Equiv (keptAfter r'.definitions) :=
  keptAfter_equiv steady same.definitions course.definitionsSettled.definitions
    course'.definitionsSettled.definitions

theorem placements_equiv : (keptAfter r.placements).Equiv (keptAfter r'.placements) :=
  keptAfter_equiv steady
    (same.placements_sameByKey steady course.definitionsSettled course'.definitionsSettled)
    course.placementsSettled course'.placementsSettled

theorem duplicateWarnings_perm_of_same : r.duplicateWarnings ~ r'.duplicateWarnings := by
  have before := course.definitionsSettled
  have before' := course'.definitionsSettled
  refine (List.Perm.append ?_ ?_).append ?_
  · exact duplicateWarnings_perm steady same.beats before.beats before'.beats
  · exact duplicateWarnings_perm steady same.definitions before.definitions before'.definitions
  · exact duplicateWarnings_perm steady (same.placements_sameByKey steady before before')
      course.placementsSettled course'.placementsSettled

/-- What one chart is made of, the other is made of too. -/
theorem ofTokens_eq_of_same {defs : List (Definition α)} {tempo : BpmTimeline α}
    (hdefs : defs.map Definition.entry = (keptAfter r.definitions).toList)
    (htempo : BpmTimeline.ofChanges? (tempoChanges defs (keptAfter r.placements)).1
      (songInfo ts).waveOffset = some tempo) :
    (ofTokens prompter ts').result = .ok ⟨songOf (collectedAfter ts r) tempo r.measures,
      r'.duplicateWarnings ++ (tempoChanges defs (keptAfter r.placements)).2 ++
        (assemble (laneLines r.measures ts)).warnings⟩ := by
  have hmeasures := same.measures_eq steady course.definitionsSettled course'.definitionsSettled
  have hinfo := songInfo_congr same.info
  rw [(definitions_equiv steady same course course').toList_eq] at hdefs
  rw [tempoChanges_congr defs (placements_equiv steady same course course'), hinfo] at htempo
  rw [course'.ofTokens_of_tempo hdefs htempo,
    tempoChanges_congr defs (placements_equiv steady same course course'), hmeasures,
    same.laneLines_eq]
  simp only [songOf, collectedAfter, hinfo, hmeasures, same.laneLines_eq]

end Accepted

/-- If one chart is accepted, the other one is, with the same song.  The warnings differ at most in the
order of those about repetitions. -/
theorem exists_ok_of_same (steady : prompter.Steady) (same : SameDeclarations ts ts')
    (course : Course prompter ts r e) (course' : Course prompter ts' r' e') {chart : Chart α}
    (hok : (ofTokens prompter ts).result = .ok chart) :
    ∃ chart', (ofTokens prompter ts').result = .ok chart' ∧ chart.song = chart'.song ∧
      r.duplicateWarnings ~ r'.duplicateWarnings ∧
      ∃ rest, chart.warnings = r.duplicateWarnings ++ rest ∧
        chart'.warnings = r'.duplicateWarnings ++ rest := by
  obtain ⟨rfl, defs, tempo, hdefs, htempo, rfl⟩ := course.eq_of_ok hok
  obtain rfl := course.eq_none_of_same steady same course'
  exact ⟨_, ofTokens_eq_of_same steady same course course' hdefs htempo, rfl,
    duplicateWarnings_perm_of_same steady same course course',
    (tempoChanges defs (keptAfter r.placements)).2 ++ (assemble (laneLines r.measures ts)).warnings,
    List.append_assoc .., List.append_assoc ..⟩

/-- A course with answers that ask for no warning gives none about repetitions. -/
theorem Course.duplicateWarnings_eq_nil {version : Version}
    (h : Course (.always (.keep version false)) ts r none) : r.duplicateWarnings = [] := by
  have before := h.definitionsSettled
  rw [Rulings.duplicateWarnings, before.beats.ruled.duplicateWarnings_eq_nil,
    before.definitions.ruled.duplicateWarnings_eq_nil,
    h.placementsSettled.ruled.duplicateWarnings_eq_nil]
  rfl

/-- Under one answer to all questions, declarations of different keys can change places: both charts fail,
or both are accepted with the same song and the same warnings up to their order, and in the same order if
the answer asks for no warning. -/
theorem ofTokens_of_sameDeclarations (version : Version) (warned : Bool)
    {ts ts' : List (Spanned (Token α))} (same : SameDeclarations ts ts') :
    (∃ e e', (ofTokens (.always (.keep version warned)) ts).result = .error e ∧
        (ofTokens (.always (.keep version warned)) ts').result = .error e') ∨
      ∃ chart chart', (ofTokens (.always (.keep version warned)) ts).result = .ok chart ∧
        (ofTokens (.always (.keep version warned)) ts').result = .ok chart' ∧
        chart.song = chart'.song ∧ chart.warnings ~ chart'.warnings ∧
        (warned = false → chart.warnings = chart'.warnings) := by
  have steady := Prompter.steady_always (α := α) version warned
  obtain ⟨r, e, course⟩ := exists_course (.always (.keep version warned)) ts
  obtain ⟨r', e', course'⟩ := exists_course (.always (.keep version warned)) ts'
  cases hok : (ofTokens (.always (.keep version warned)) ts).result with
  | error error =>
    cases hok' : (ofTokens (.always (.keep version warned)) ts').result with
    | error error' => exact .inl ⟨error, error', rfl, rfl⟩
    | ok chart' =>
      obtain ⟨chart, hchart, -⟩ := exists_ok_of_same steady same.symm course' course hok'
      rw [hok] at hchart
      cases hchart
  | ok chart =>
    obtain ⟨chart', hok', hsong, hperm, rest, hws, hws'⟩ :=
      exists_ok_of_same steady same course course' hok
    refine .inr ⟨chart, chart', rfl, hok', hsong, ?_, ?_⟩
    · rw [hws, hws']
      exact hperm.append_right rest
    · rintro rfl
      obtain ⟨rfl, -⟩ := course.eq_of_ok hok
      obtain ⟨rfl, -⟩ := course'.eq_of_ok hok'
      rw [hws, hws', course.duplicateWarnings_eq_nil, course'.duplicateWarnings_eq_nil]

/-- Two names are defined, the first one twice, and the second one moves before the first. -/
theorem ofTokens_of_sameDeclarations_of_two_names :
    let ts : List (Spanned (Token Float)) := [⟨.bpmDefinition ⟨1⟩ Finite.four, ⟨0, 9⟩⟩,
      ⟨.bpmDefinition ⟨1⟩ ⟨5, by decide⟩, ⟨10, 19⟩⟩, ⟨.bpmDefinition ⟨2⟩ Finite.four, ⟨20, 29⟩⟩]
    let ts' : List (Spanned (Token Float)) := [⟨.bpmDefinition ⟨2⟩ Finite.four, ⟨20, 29⟩⟩,
      ⟨.bpmDefinition ⟨1⟩ Finite.four, ⟨0, 9⟩⟩, ⟨.bpmDefinition ⟨1⟩ ⟨5, by decide⟩, ⟨10, 19⟩⟩]
    ∃ chart chart', (ofTokens (.always (.keep .newer true)) ts).result = .ok chart ∧
      (ofTokens (.always (.keep .newer true)) ts').result = .ok chart' ∧
      chart.song = chart'.song ∧ chart.warnings ~ chart'.warnings := by
  intro ts ts'
  have same : SameDeclarations ts ts' := by
    refine ⟨fun _ => rfl, fun k => ?_, fun _ => rfl, by simp [ofKind, ts, ts', kind?], fun k hk => ?_⟩
    · by_cases h1 : (⟨1⟩ : BpmId) = k <;> by_cases h2 : (⟨2⟩ : BpmId) = k
      · rw [← h1] at h2
        exact absurd h2 (by decide)
      all_goals simp [declarationsOf, bpmDeclarations, ts, ts', h1, h2]
    · cases k <;> first | exact absurd hk (by decide) | simp [ofKind, ts, ts', kind?]
  obtain ⟨chart, hchart⟩ : ∃ chart, (ofTokens (.always (.keep .newer true)) ts).result = .ok chart :=
    exists_eq_ok_of_isOk (by decide +kernel)
  rcases ofTokens_of_sameDeclarations .newer true same with ⟨e, e', herror, -⟩ | h
  · rw [hchart] at herror
    cases herror
  · obtain ⟨chart, chart', hok, hok', hsong, hperm, -⟩ := h
    exact ⟨chart, chart', hok, hok', hsong, hperm⟩

end Chart

end RhythmChart
