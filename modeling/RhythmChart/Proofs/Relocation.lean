import RhythmChart.Proofs.Coupling
import RhythmChart.Proofs.Rulings
import RhythmChart.Proofs.Stages

/-!
# Tokens at other places

What a chart comes to does not depend on the places of its tokens.  Let `R` relate places.  Tokens with the
same contents at places that `R` relates are read in step: the prompter is called alike, the songs are the
same, and warnings and errors have the same contents at places that `R` relates (`ofTokens_moved`).  No step
looks at a place, so it only matters that each structure of a reading carries places on to others that `R`
relates.
-/

namespace RhythmChart

variable {α : Type} {R : Span → Span → Prop}

/-! ## The same things at other places -/

/-- The same content, at places that correspond. -/
structure Spanned.Moved {β : Type} (R : Span → Span → Prop) (x y : Spanned β) : Prop where
  content : x.content = y.content
  span : R x.span y.span

structure Declaration.Moved {κ ν : Type} (R : Span → Span → Prop) (d d' : Declaration κ ν) : Prop where
  key : d.key = d'.key
  value : d.value = d'.value
  span : R d.span d'.span

structure OpenSlide.Moved (R : Span → Span → Prop) (s s' : OpenSlide α) : Prop where
  mark : s.mark = s'.mark
  time : s.time = s'.time
  span : R s.span s'.span

inductive LaneLine.Moved (R : Span → Span → Prop) : LaneLine α → LaneLine α → Prop
  | taps (lane : Nat) (slots : List (Slot α)) : Moved R (.taps lane slots) (.taps lane slots)
  | slides (lane channel : Nat) (slots : List (Slot α)) {span span' : Span} (h : R span span') :
      Moved R (.slides lane channel slots span) (.slides lane channel slots span')

/-- The same notes, and the same warnings at places that correspond. -/
structure Assembly.Moved (R : Span → Span → Prop) (a a' : Assembly α) : Prop where
  notes : a.notes = a'.notes
  warnings : List.Forall₂ (Spanned.Moved R) a.warnings a'.warnings

/-- The same error at places that correspond.  That no BPM is defined has no place. -/
inductive ParseError.Moved (R : Span → Span → Prop) : Spanned ParseError → Spanned ParseError → Prop
  | placed {e e' : Spanned ParseError} (h : Spanned.Moved R e e') : Moved R e e'
  | noBpmDefinition : Moved R ⟨.noBpmDefinition, ⟨0, 0⟩⟩ ⟨.noBpmDefinition, ⟨0, 0⟩⟩

/-! ## Maps that agree key by key -/

/-- The two maps have the same keys, and the values of each key are related. -/
def Pointwise {κ ν ν' : Type} [Ord κ] (V : ν → ν' → Prop) (m : Std.TreeMap κ ν) (m' : Std.TreeMap κ ν') :
    Prop :=
  ∀ k : κ, Option.Rel V m[k]? m'[k]?

namespace Pointwise

variable {κ ν ν' : Type} [Ord κ] [Std.TransOrd κ] {V : ν → ν' → Prop} {m : Std.TreeMap κ ν}
  {m' : Std.TreeMap κ ν'}

theorem empty : Pointwise V (∅ : Std.TreeMap κ ν) ∅ := by
  intro k
  rw [Std.TreeMap.getElem?_emptyc, Std.TreeMap.getElem?_emptyc]
  exact .none

theorem insert (h : Pointwise V m m') (k : κ) {v : ν} {v' : ν'} (hv : V v v') :
    Pointwise V (m.insert k v) (m'.insert k v') := by
  intro k'
  rw [Std.TreeMap.getElem?_insert, Std.TreeMap.getElem?_insert]
  split
  · exact .some hv
  · exact h k'

theorem erase (h : Pointwise V m m') (k : κ) : Pointwise V (m.erase k) (m'.erase k) := by
  intro k'
  rw [Std.TreeMap.getElem?_erase, Std.TreeMap.getElem?_erase]
  split
  · exact .none
  · exact h k'

theorem contains_eq (h : Pointwise V m m') (k : κ) : m.contains k = m'.contains k := by
  rw [Std.TreeMap.contains_eq_isSome_getElem?, Std.TreeMap.contains_eq_isSome_getElem?]
  have hk := h k
  generalize m[k]? = x at *
  generalize m'[k]? = y at *
  cases hk <;> rfl

theorem mem_iff (h : Pointwise V m m') (k : κ) : k ∈ m ↔ k ∈ m' := by
  rw [Std.TreeMap.mem_iff_contains, Std.TreeMap.mem_iff_contains, h.contains_eq]

theorem isEmpty_eq (h : Pointwise V m m') : m.isEmpty = m'.isEmpty := by
  rw [Bool.eq_iff_iff, Std.TreeMap.isEmpty_iff_forall_not_mem, Std.TreeMap.isEmpty_iff_forall_not_mem]
  simp only [h.mem_iff]

variable [Std.LawfulEqOrd κ]

theorem keys_eq (h : Pointwise V m m') : m.keys = m'.keys := by
  have hunit : (m.map fun _ _ => ()).Equiv (m'.map fun _ _ => ()) :=
    .of_forall_mem_unit_iff fun k => by rw [Std.TreeMap.mem_map, Std.TreeMap.mem_map, h.mem_iff]
  rw [← Std.TreeMap.keys_map, hunit.keys_eq, Std.TreeMap.keys_map]

/-- Entry by entry the keys are the same, and the values are related. -/
theorem forall₂_toList (h : Pointwise V m m') :
    List.Forall₂ (fun e e' => e.1 = e'.1 ∧ V e.2 e'.2) m.toList m'.toList := by
  have hfst : List.Forall₂ Eq (m.toList.map Prod.fst) (m'.toList.map Prod.fst) := by
    rw [List.forall₂_eq_eq_eq, Std.TreeMap.map_fst_toList_eq_keys, Std.TreeMap.map_fst_toList_eq_keys]
    exact h.keys_eq
  have hkeys := List.forall₂_map_left_iff.1 (List.forall₂_map_right_iff.1 hfst)
  rw [List.forall₂_iff_zip] at hkeys ⊢
  refine ⟨hkeys.1, fun {e e'} hmem => ?_⟩
  obtain ⟨k, v⟩ := e
  obtain ⟨k', v'⟩ := e'
  obtain rfl : k = k' := hkeys.2 hmem
  obtain ⟨hv, hv'⟩ := List.of_mem_zip hmem
  have hrel := h k
  rw [Std.TreeMap.mem_toList_iff_getElem?_eq_some.1 hv,
    Std.TreeMap.mem_toList_iff_getElem?_eq_some.1 hv'] at hrel
  cases hrel with
  | some hrel => exact ⟨rfl, hrel⟩

end Pointwise

/-! ## Notes -/

namespace Assembly

variable {a a' b b' : Assembly α}

theorem Moved.append (ha : Moved R a a') (hb : Moved R b b') : Moved R (a ++ b) (a' ++ b') where
  notes := congrArg₂ (· ++ ·) ha.notes hb.notes
  warnings := List.rel_append ha.warnings hb.warnings

theorem moved_notes {notes notes' : List (Note (Mark α))} (h : notes = notes') :
    Moved R ⟨notes, []⟩ ⟨notes', []⟩ :=
  ⟨h, .nil⟩

theorem moved_warning (w : Warning) {span span' : Span} (h : R span span') :
    Moved R (⟨[], [⟨w, span⟩]⟩ : Assembly α) ⟨[], [⟨w, span'⟩]⟩ :=
  ⟨rfl, .cons ⟨rfl, h⟩ .nil⟩

theorem moved_unclosed (channel : Nat) {s? s?' : Option (OpenSlide α)}
    (h : Option.Rel (OpenSlide.Moved R) s? s?') :
    Moved R (unclosed channel s?) (unclosed channel s?') := by
  cases h with
  | none => exact moved_notes rfl
  | some hs =>
    rw [unclosed, unclosed, hs.time]
    exact moved_warning _ hs.span

end Assembly

/-- Slots on lines at places that correspond, with starts that wait at places that correspond. -/
theorem moved_slideLine (lane channel : Nat) {span span' : Span} (hspan : R span span')
    {onLine onLine' onChannel onChannel' : Option (OpenSlide α)}
    (hline : Option.Rel (OpenSlide.Moved R) onLine onLine')
    (hchannel : Option.Rel (OpenSlide.Moved R) onChannel onChannel') (slots : List (Slot α)) :
    Assembly.Moved R (slideLine lane channel span onLine onChannel slots).1
        (slideLine lane channel span' onLine' onChannel' slots).1 ∧
      Option.Rel (OpenSlide.Moved R) (slideLine lane channel span onLine onChannel slots).2
        (slideLine lane channel span' onLine' onChannel' slots).2 := by
  have hslide {s s' : OpenSlide α} (hs : OpenSlide.Moved R s s') (m : Mark α) :
      Assembly.Moved R (.note (.slide channel s.mark m)) (.note (.slide channel s'.mark m)) :=
    Assembly.moved_notes (by rw [hs.mark])
  have hopened (slot : Slot α) : OpenSlide.Moved R ⟨slot.mark lane, slot.time, span⟩
      ⟨slot.mark lane, slot.time, span'⟩ := ⟨rfl, rfl, hspan⟩
  induction slots generalizing onLine onLine' onChannel onChannel' with
  | nil =>
    cases hline with
    | none => exact ⟨Assembly.moved_notes rfl, hchannel⟩
    | some hs => exact ⟨Assembly.moved_unclosed channel hchannel, .some hs⟩
  | cons slot slots ih =>
    unfold slideLine
    by_cases hstart : slot.high = slideStart
    · rw [if_pos hstart, if_pos hstart]
      obtain ⟨hrest, hwaiting⟩ := ih (.some (hopened slot)) hchannel
      exact ⟨(Assembly.moved_unclosed channel hline).append hrest, hwaiting⟩
    · rw [if_neg hstart, if_neg hstart]
      by_cases hstop : slot.high = slideEnd
      · rw [if_pos hstop, if_pos hstop]
        cases hline with
        | some hs =>
          obtain ⟨hrest, hwaiting⟩ := ih .none hchannel
          exact ⟨(hslide hs _).append hrest, hwaiting⟩
        | none =>
          obtain ⟨hrest, hwaiting⟩ := ih .none .none
          cases hchannel with
          | some hs => exact ⟨(hslide hs _).append hrest, hwaiting⟩
          | none => exact ⟨(Assembly.moved_warning _ hspan).append hrest, hwaiting⟩
      · rw [if_neg hstop, if_neg hstop]
        exact ih hline hchannel

theorem OpenSlides.moved_set {opened opened' : OpenSlides α}
    (h : Pointwise (OpenSlide.Moved R) opened opened') (channel : Nat) {s? s?' : Option (OpenSlide α)}
    (hs : Option.Rel (OpenSlide.Moved R) s? s?') :
    Pointwise (OpenSlide.Moved R) (opened.set channel s?) (opened'.set channel s?') := by
  cases hs with
  | none => exact h.erase channel
  | some hs => exact h.insert channel hs

theorem moved_assembleFrom {opened opened' : OpenSlides α}
    (hopened : Pointwise (OpenSlide.Moved R) opened opened') {lines lines' : List (LaneLine α)}
    (h : List.Forall₂ (LaneLine.Moved R) lines lines') :
    Assembly.Moved R (assembleFrom opened lines) (assembleFrom opened' lines') := by
  induction h generalizing opened opened' with
  | nil =>
    refine ⟨rfl, List.rel_map ?_ hopened.forall₂_toList⟩
    rintro ⟨channel, s⟩ ⟨channel', s'⟩ ⟨rfl, hs⟩
    exact ⟨congrArg (Warning.unclosedSlide channel) hs.time, hs.span⟩
  | cons hline _ ih =>
    cases hline with
    | taps lane slots => exact (Assembly.moved_notes rfl).append (ih hopened)
    | slides lane channel slots hspan =>
      obtain ⟨hmade, hwaiting⟩ := moved_slideLine lane channel hspan .none (hopened channel) slots
      exact hmade.append (ih (OpenSlides.moved_set hopened channel hwaiting))

theorem moved_assemble {lines lines' : List (LaneLine α)}
    (h : List.Forall₂ (LaneLine.Moved R) lines lines') :
    Assembly.Moved R (assemble lines) (assemble lines') :=
  moved_assembleFrom .empty h

variable [Scalar α]

/-! ## Parts of a chart -/

namespace Token

variable {ts ts' : List (Spanned (Token α))} (h : List.Forall₂ (Spanned.Moved R) ts ts')

include h

theorem moved_beatsDeclarations :
    List.Forall₂ (Declaration.Moved R) (beatsDeclarations ts) (beatsDeclarations ts') := by
  refine List.rel_filterMap ?_ h
  rintro ⟨content, span⟩ ⟨_, span'⟩ ⟨rfl, hspan⟩
  cases content with
  | beatsPerMeasure track value => exact .some ⟨rfl, rfl, hspan⟩
  | _ => exact .none

theorem moved_bpmDeclarations :
    List.Forall₂ (Declaration.Moved R) (bpmDeclarations ts) (bpmDeclarations ts') := by
  refine List.rel_filterMap ?_ h
  rintro ⟨content, span⟩ ⟨_, span'⟩ ⟨rfl, hspan⟩
  cases content with
  | bpmDefinition id value => exact .some ⟨rfl, rfl, hspan⟩
  | _ => exact .none

theorem moved_placements (measures : MeasureTimeline α) :
    List.Forall₂ (Declaration.Moved R) (placements measures ts) (placements measures ts') := by
  rw [placements_eq_flatMap, placements_eq_flatMap]
  refine List.rel_flatMap h ?_
  rintro ⟨content, span⟩ ⟨_, span'⟩ ⟨rfl, hspan⟩
  cases content with
  | message track channel payload =>
    cases channel with
    | bpmChange =>
      refine List.forall₂_map_left_iff.2 (List.forall₂_map_right_iff.2 (List.forall₂_same.2 ?_))
      exact fun s _ => ⟨rfl, rfl, hspan⟩
    | _ => exact .nil
  | _ => exact .nil

theorem moved_laneLines (measures : MeasureTimeline α) :
    List.Forall₂ (LaneLine.Moved R) (laneLines measures ts) (laneLines measures ts') := by
  refine List.rel_filterMap ?_ h
  rintro ⟨content, span⟩ ⟨_, span'⟩ ⟨rfl, hspan⟩
  cases content with
  | message track channel payload =>
    cases channel with
    | tap lane => exact .some (.taps lane _)
    | slide lane channel => exact .some (.slides lane channel _ hspan)
    | _ => exact .none
  | _ => exact .none

theorem last?_eq_of_moved {β : Type} (fact : Token α → Option β) : last? fact ts = last? fact ts' := by
  induction h with
  | nil => rfl
  | cons ht _ ih => rw [last?_cons, last?_cons, ih, ht.content]

/-- The facts about a song are read from contents alone. -/
theorem songInfo_eq_of_moved : songInfo ts = songInfo ts' := by
  simp only [songInfo, infoFrom, last?_eq_of_moved h]

end Token

/-! ## Tempo -/

structure Definition.Moved (R : Span → Span → Prop) (d d' : Definition α) : Prop where
  id : d.id = d'.id
  bpm : d.bpm = d'.bpm
  span : R d.span d'.span

theorem Definition.Moved.changeAt_eq {d d' : Definition α} (h : Definition.Moved R d d') (beat : α) :
    d.changeAt beat = d'.changeAt beat := by
  rw [Definition.changeAt, Definition.changeAt, h.id, h.bpm]

theorem Definition.Moved.unplaced {d d' : Definition α} (h : Definition.Moved R d d') :
    Spanned.Moved R d.unplaced d'.unplaced :=
  ⟨congrArg Warning.unplacedBpm h.id, h.span⟩

section Join

variable {ds ds' : List (Definition α)} (hds : List.Forall₂ (Definition.Moved R) ds ds')
  {placed placed' : Kept BpmId (Placement α)} (h : Pointwise (Spanned.Moved R) placed placed')

include hds h

/-- Definitions make the same changes at the same placements. -/
theorem placedChanges_eq_of_moved : placedChanges ds placed = placedChanges ds' placed' := by
  rw [← List.forall₂_eq_eq_eq]
  refine List.rel_filterMap (fun d d' hd => ?_) hds
  have hp := h d.id
  rw [← hd.id]
  generalize placed[d.id]? = p at *
  generalize placed'[d.id]? = p' at *
  cases hp with
  | none => exact .none
  | @some p p' hp =>
    refine .some ?_
    dsimp only
    rw [hp.content, hd.changeAt_eq]

theorem moved_leftOver : List.Forall₂ (Spanned.Moved R) (leftOver ds placed) (leftOver ds' placed') := by
  unfold leftOver
  rw [h.isEmpty_eq]
  split
  · exact .nil
  · refine List.rel_map (fun _ _ hd => hd.unplaced) (List.rel_filter (fun d d' hd => ?_) hds)
    dsimp only
    rw [← hd.id, h.contains_eq]

end Join

theorem Chart.measureTimeline_eq_of_moved {kept kept' : Kept Track (Finite α)}
    (h : Pointwise (Spanned.Moved R) kept kept') : measureTimeline kept = measureTimeline kept' := by
  refine congrArg MeasureTimeline.ofChanges ?_
  rw [← List.forall₂_eq_eq_eq]
  refine List.rel_map ?_ h.forall₂_toList
  rintro ⟨track, beats⟩ ⟨_, beats'⟩ ⟨rfl, hbeats⟩
  exact congrArg (MeasureChange.mk _) hbeats.content

/-! ## Readings in step -/

/-- The same calls were made, and the same warnings given, at places that correspond. -/
structure Log.Moved (R : Span → Span → Prop) (log log' : Log α) : Prop where
  prompts : log.prompts = log'.prompts
  warnings : List.Forall₂ (Spanned.Moved R) log.warnings log'.warnings

/-- The two computations come to results that `V` relates, or to the same error at places that correspond, with
the same calls and the same warnings. -/
abbrev InStep {β β' : Type} (R : Span → Span → Prop) (V : β → β' → Prop) (x : Settling α β)
    (y : Settling α β') : Prop :=
  Coupled (Log.Moved R) (ParseError.Moved R) V x y

namespace InStep

variable {prompter : Prompter α}

theorem stop {β β' : Type} {V : β → β' → Prop} (e : ParseError) {span span' : Span} (h : R span span') :
    InStep R V (RhythmChart.stop e span : Settling α β) (RhythmChart.stop e span' : Settling α β') :=
  Coupled.stop (.placed ⟨rfl, h⟩)

theorem warn {ws ws' : List (Spanned Warning)} (h : List.Forall₂ (Spanned.Moved R) ws ws') :
    InStep R Eq (RhythmChart.warn ws : Settling α Unit) (RhythmChart.warn ws') :=
  fun _ _ hlog => ⟨.ok rfl, hlog.prompts, List.rel_append (List.rel_reverse h) hlog.warnings⟩

theorem consult (d : Duplication α) {span span' : Span} (h : R span span') :
    InStep R Eq (RhythmChart.consult prompter d span) (RhythmChart.consult prompter d span') := by
  rintro ⟨prompts, warnings⟩ ⟨prompts', warnings'⟩ ⟨rfl, hwarnings⟩
  dsimp only at hwarnings
  cases hchoice : prompter prompts d with
  | halt =>
    rw [run_consult_of_halt hchoice, run_consult_of_halt hchoice]
    exact ⟨.error (.placed ⟨rfl, h⟩), rfl, hwarnings⟩
  | keep version warned =>
    rw [run_consult_of_keep hchoice, run_consult_of_keep hchoice]
    refine ⟨.ok rfl, rfl, List.rel_append ?_ hwarnings⟩
    cases warned with
    | false => exact .nil
    | true => exact .cons ⟨rfl, h⟩ .nil

section Declarations

variable {κ ν : Type} [Ord κ] [Std.TransOrd κ] {ask : κ → ν → ν → Duplication α}

theorem declare {kept kept' : Kept κ ν} (hkept : Pointwise (Spanned.Moved R) kept kept')
    {d d' : Declaration κ ν} (hd : Declaration.Moved R d d') :
    InStep R (Pointwise (Spanned.Moved R)) (RhythmChart.declare prompter ask kept d)
      (RhythmChart.declare prompter ask kept' d') := by
  obtain ⟨key, value, span⟩ := d
  obtain ⟨key', value', span'⟩ := d'
  obtain ⟨rfl, rfl, hspan⟩ := hd
  have hinsert := hkept.insert key (⟨rfl, hspan⟩ : Spanned.Moved R ⟨value, span⟩ ⟨value, span'⟩)
  have hholder := hkept key
  unfold RhythmChart.declare
  dsimp only at hspan ⊢
  generalize kept[key]? = holder at *
  generalize kept'[key]? = holder' at *
  cases hholder with
  | none => exact Coupled.pure hinsert
  | some holder =>
    dsimp only
    rw [holder.content]
    refine (consult _ hspan).bind ?_
    rintro version _ rfl
    cases version with
    | older => exact Coupled.pure hkept
    | newer => exact Coupled.pure hinsert

theorem settle {ds ds' : List (Declaration κ ν)} (hds : List.Forall₂ (Declaration.Moved R) ds ds') :
    InStep R (Pointwise (Spanned.Moved R)) (RhythmChart.settle prompter ask ds)
      (RhythmChart.settle prompter ask ds') := by
  refine Coupled.foldlM ?_ .empty hds
  intro kept kept' d d' hkept hd
  exact declare hkept hd

end Declarations

section Tempo

variable {defined defined' : Kept BpmId (Finite α)}

theorem settlePlacements (hdefined : Pointwise (Spanned.Moved R) defined defined')
    {ds ds' : List (Declaration BpmId (Placement α))} (hds : List.Forall₂ (Declaration.Moved R) ds ds') :
    InStep R (Pointwise (Spanned.Moved R)) (RhythmChart.settlePlacements prompter defined ds)
      (RhythmChart.settlePlacements prompter defined' ds') := by
  refine Coupled.foldlM ?_ .empty hds
  intro kept kept' d d' hkept hd
  rw [← hdefined.contains_eq, ← hd.key]
  split
  · exact declare hkept hd
  · exact stop _ hd.span

theorem definition (id : BpmId) {bpm bpm' : Spanned (Finite α)} (h : Spanned.Moved R bpm bpm') :
    InStep R (Definition.Moved R) (RhythmChart.definition id bpm) (RhythmChart.definition id bpm') := by
  unfold RhythmChart.definition
  rw [← h.content]
  cases bpm.content.positive? with
  | none => exact stop _ h.span
  | some positive => exact Coupled.pure ⟨rfl, rfl, h.span⟩

theorem definitions (h : Pointwise (Spanned.Moved R) defined defined') :
    InStep R (List.Forall₂ (Definition.Moved R)) (RhythmChart.definitions defined)
      (RhythmChart.definitions defined') := by
  refine Coupled.mapM ?_ h.forall₂_toList
  rintro ⟨id, bpm⟩ ⟨id', bpm'⟩ ⟨rfl, hbpm⟩
  exact definition _ hbpm

variable {ds ds' : List (Definition α)} (hds : List.Forall₂ (Definition.Moved R) ds ds')

include hds

theorem implicitChange : InStep R Eq (RhythmChart.implicitChange ds) (RhythmChart.implicitChange ds') := by
  cases hds with
  | nil => exact Coupled.stop .noBpmDefinition
  | cons hd hrest =>
    have himplicit : Spanned.Moved R (Definition.implicit _) (Definition.implicit _) :=
      ⟨congrArg Warning.implicitInitialBpm hd.id, hd.span⟩
    refine (warn (.cons himplicit (List.rel_map (fun _ _ hd => hd.unplaced) hrest))).bind fun _ _ _ => ?_
    exact Coupled.pure (congrArg (fun c => [c]) (hd.changeAt_eq _))

/-- The same changes of tempo, with the same warnings at places that correspond. -/
theorem settleChanges {placed placed' : Kept BpmId (Placement α)}
    (h : Pointwise (Spanned.Moved R) placed placed') :
    InStep R Eq (RhythmChart.settleChanges ds placed) (RhythmChart.settleChanges ds' placed') := by
  refine (warn (moved_leftOver hds h)).bind fun _ _ _ => ?_
  rw [placedChanges_eq_of_moved hds h]
  split
  · exact implicitChange hds
  · exact Coupled.pure rfl

end Tempo

theorem assembleSong (measures : MeasureTimeline α) (info : SongInfo α)
    {defined defined' : Kept BpmId (Finite α)} (hdefined : Pointwise (Spanned.Moved R) defined defined')
    {placements placements' : List (Declaration BpmId (Placement α))}
    (hplacements : List.Forall₂ (Declaration.Moved R) placements placements')
    {lines lines' : List (LaneLine α)} (hlines : List.Forall₂ (LaneLine.Moved R) lines lines') :
    InStep R Eq
      (Chart.assembleSong prompter measures ⟨info, defined, placements.toArray, lines.toArray⟩)
      (Chart.assembleSong prompter measures ⟨info, defined', placements'.toArray, lines'.toArray⟩) := by
  refine (settlePlacements hdefined hplacements).bind fun placed placed' hplaced => ?_
  refine (definitions hdefined).bind fun defs defs' hdefs => ?_
  refine (settleChanges hdefs hplaced).bind ?_
  rintro changes _ rfl
  have hassembly := moved_assemble hlines
  cases BpmTimeline.ofChanges? changes info.waveOffset with
  | none => exact Coupled.stop .noBpmDefinition
  | some tempo =>
    refine (warn hassembly.warnings).bind fun _ _ _ => Coupled.pure ?_
    rw [hassembly.notes]

/-- Tokens at other places are read in step, and make the same song. -/
theorem resolve {ts ts' : List (Spanned (Token α))} (h : List.Forall₂ (Spanned.Moved R) ts ts') :
    InStep R Eq (Chart.resolve prompter ts) (Chart.resolve prompter ts') := by
  rw [Chart.resolve_eq_stages, Chart.resolve_eq_stages, ← Token.songInfo_eq_of_moved h]
  refine (settle (Token.moved_beatsDeclarations h)).bind fun beats beats' hbeats => ?_
  refine (settle (Token.moved_bpmDeclarations h)).bind fun defined defined' hdefined => ?_
  rw [Chart.measureTimeline_eq_of_moved hbeats]
  exact assembleSong _ _ hdefined (Token.moved_placements h _) (Token.moved_laneLines h _)

end InStep

namespace Chart

/-- The same song, with the same warnings at places that correspond. -/
structure Moved (R : Span → Span → Prop) (chart chart' : Chart α) : Prop where
  song : chart.song = chart'.song
  warnings : List.Forall₂ (Spanned.Moved R) chart.warnings chart'.warnings

/-- What tokens come to does not depend on their places. -/
theorem ofTokens_moved (prompter : Prompter α) {ts ts' : List (Spanned (Token α))}
    (h : List.Forall₂ (Spanned.Moved R) ts ts') :
    (ofTokens prompter ts).prompts = (ofTokens prompter ts').prompts ∧
      ExceptRel (ParseError.Moved R) (Moved R) (ofTokens prompter ts).result
        (ofTokens prompter ts').result := by
  have hempty : Log.Moved R (.empty : Log α) .empty := ⟨rfl, .nil⟩
  obtain ⟨hresult, hprompts, hwarnings⟩ := InStep.resolve h _ _ hempty
  unfold ofTokens
  generalize (resolve prompter ts).run.run Log.empty = x at *
  generalize (resolve prompter ts').run.run Log.empty = y at *
  obtain ⟨result, log⟩ := x
  obtain ⟨result', log'⟩ := y
  refine ⟨congrArg List.reverse hprompts, ?_⟩
  cases hresult with
  | error he => exact .error he
  | ok hsong => exact .ok ⟨hsong, List.rel_reverse hwarnings⟩

end Chart

end RhythmChart
