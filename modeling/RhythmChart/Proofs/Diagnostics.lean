import RhythmChart.Proofs.Definitions
import RhythmChart.Proofs.Failure
import RhythmChart.Proofs.Slides.Pairing
import RhythmChart.Proofs.Source.Lines

/-!
# Where diagnostics point

Each warning and each error comes with a span, and the span is that of one line of the text: the line
that the diagnostic is about.  For a slide it is the message with the slot that has no partner, for a
BPM the definition that is kept, for a repetition the line that declares the key again, and for a fault
of a single line that line (`read_located`).
-/

namespace RhythmChart

variable {α : Type} [Scalar α] {κ ν : Type}

/-! ## The lines of declarations -/

namespace Token

/-- Where an element of a concatenation comes from, and what comes before it. -/
theorem exists_of_flatMap_eq {β γ : Type} {f : β → List γ} {xs : List β} {ys zs : List γ} {y : γ}
    (h : xs.flatMap f = ys ++ y :: zs) : ∃ before x earlier later,
      before ++ [x] <+: xs ∧ f x = earlier ++ y :: later ∧ ys = before.flatMap f ++ earlier := by
  induction xs generalizing ys with
  | nil => exact absurd h (by simp)
  | cons x xs ih =>
    -- Elements of the rest are found by induction.
    have hrest (ys' : List γ) (hys : ys = f x ++ ys') (hxs : xs.flatMap f = ys' ++ y :: zs) :
        ∃ before x' earlier later, before ++ [x'] <+: x :: xs ∧ f x' = earlier ++ y :: later ∧
          ys = before.flatMap f ++ earlier := by
      obtain ⟨before, x', earlier, later, hupTo, hx', rfl⟩ := ih hxs
      refine ⟨x :: before, x', earlier, later, (List.prefix_cons_inj x).2 hupTo, hx', ?_⟩
      rw [hys, List.flatMap_cons, List.append_assoc]
    rw [List.flatMap_cons] at h
    rcases List.append_eq_append_iff.1 h with ⟨ys', hys, hxs⟩ | ⟨later, hx, hxs⟩
    · exact hrest ys' hys hxs
    · cases later with
      | nil => exact hrest [] (by simp [hx]) hxs.symm
      | cons y' later =>
        obtain ⟨rfl, -⟩ := List.cons.inj hxs
        exact ⟨[], x, ys, later, ⟨xs, rfl⟩, hx, rfl⟩

/-- The line of a declaration, by the declarations before it. -/
theorem DeclaredBy.exists_line {keys : Token α → List κ} {ts : List (Spanned (Token α))}
    {ds rest : List (Declaration κ ν)} {d : Declaration κ ν}
    (h : DeclaredBy keys ts (ds ++ d :: rest)) : ∃ before t earlier later,
      before ++ [t] <+: ts ∧ t.span = d.span ∧ keys t.content = earlier ++ d.key :: later ∧
        ds.map Declaration.key = keysOf keys before ++ earlier := by
  rw [DeclaredBy, List.map_append, List.map_cons] at h
  obtain ⟨before, t, earlier, later, hupTo, ht, hds⟩ := exists_of_flatMap_eq h.symm
  obtain ⟨earlier, rest', hkeys, rfl, hrest⟩ := List.map_eq_append_iff.1 ht
  obtain ⟨k, later, rfl, hk, -⟩ := List.map_eq_cons_iff.1 hrest
  obtain ⟨rfl, hspan⟩ := Prod.mk.inj hk
  refine ⟨before, t, earlier, later, hupTo, hspan, hkeys, ?_⟩
  have hfst := congrArg (List.map Prod.fst) hds
  simpa [keysOf, List.map_flatMap, Function.comp_def] using hfst

end Token

/-! ## What diagnostics are about -/

open Token

/-- The line is a slide message on a channel, and a slot of it has an object of a kind at a time. -/
def Token.HasEdge (kind : Nat) (channel : Nat) (time : SlotTime) (t : Token α) : Prop :=
  ∃ (track : Track) (lane : Nat) (payload : String) (i : Fin (payload.toList.length / 2))
    (high low : Digit), t = .message track (.slide lane channel) payload ∧
      Slot.Sounds payload.toList i (high, low) ∧ high.val = kind ∧ time = SlotTime.ofSlot track i

/-- The line defines the BPM that is kept for a name. -/
def DefinesKept (r : Rulings α) (id : BpmId) (t : Spanned (Token α)) : Prop :=
  ∃ bpm, t.content = .bpmDefinition id bpm ∧
    (keptAfter r.definitions)[id]? = some ⟨bpm, t.span⟩

/-- The line declares a key again: an earlier line declares it, or an earlier slot of the line.  The
ruling on this declaration is one of a kind. -/
def Redeclares (keys : Token α → List κ) (rs : List (Ruling α κ ν)) (P : Ruling α κ ν → Prop)
    (before : List (Spanned (Token α))) (t : Spanned (Token α)) (k : κ) : Prop :=
  ∃ earlier later ruling, keys t.content = earlier ++ k :: later ∧
    k ∈ keysOf keys before ++ earlier ∧
    rs[(keysOf keys before ++ earlier).length]? = some ruling ∧ P ruling

/-- The warning is about the line `t`, which comes after the lines `before`. -/
def Warning.IsAbout (r : Rulings α) (before : List (Spanned (Token α))) (t : Spanned (Token α))
    (w : Warning) : Prop :=
  match w with
  | .unclosedSlide channel time => t.content.HasEdge 1 channel time
  | .unmatchedSlideEnd channel time => t.content.HasEdge 2 channel time
  | .unplacedBpm id => DefinesKept r id t
  | .implicitInitialBpm id => DefinesKept r id t
  | .duplicateBpmDefinition id =>
    Redeclares definedNames r.definitions (fun d => d.warning? = some ⟨w, t.span⟩) before t id
  | .duplicateBpmPlacement id =>
    Redeclares placedNames r.placements (fun d => d.warning? = some ⟨w, t.span⟩) before t id
  | .duplicateBeatsPerMeasure track =>
    Redeclares tracks r.beats (fun d => d.warning? = some ⟨w, t.span⟩) before t track

/-- The error is about the line `t`, which comes after the lines `before`.  That nothing is defined is
not about a line. -/
def ParseError.IsAbout (ts : List (Spanned (Token α))) (r : Rulings α)
    (before : List (Spanned (Token α))) (t : Spanned (Token α)) : ParseError → Prop
  | .undefinedBpm id => id ∈ placedNames t.content ∧ ¬ Defines ts id
  | .nonPositiveBpm id => DefinesKept r id t
  | .noBpmDefinition => False
  | .halted =>
    (∃ track, Redeclares tracks r.beats Ruling.Halts before t track) ∨
      (∃ id, Redeclares definedNames r.definitions Ruling.Halts before t id) ∨
      ∃ id, Redeclares placedNames r.placements Ruling.Halts before t id

/-- The span is that of a line which a diagnostic is about. -/
def PointsAt (ts : List (Spanned (Token α))) (span : Span)
    (about : List (Spanned (Token α)) → Spanned (Token α) → Prop) : Prop :=
  ∃ before t, before ++ [t] <+: ts ∧ t.span = span ∧ about before t

theorem PointsAt.imp {ts : List (Spanned (Token α))} {span : Span}
    {about about' : List (Spanned (Token α)) → Spanned (Token α) → Prop}
    (h : PointsAt ts span about) (himp : ∀ before t, t.span = span → about before t → about' before t) :
    PointsAt ts span about' := by
  obtain ⟨before, t, hupTo, hspan, habout⟩ := h
  exact ⟨before, t, hupTo, hspan, himp before t hspan habout⟩

theorem pointsAt_of_mem (about : Spanned (Token α) → Prop) {ts : List (Spanned (Token α))}
    {t : Spanned (Token α)} (h : t ∈ ts) (habout : about t) :
    PointsAt ts t.span fun _ t => about t := by
  obtain ⟨before, after, rfl⟩ := List.append_of_mem h
  exact ⟨before, t, ⟨after, by simp⟩, rfl, habout⟩

/-! ## Repetitions -/

section Repetitions

variable [Ord κ] [Std.TransOrd κ] [Std.LawfulEqOrd κ] {prompter : Prompter α}
  {ask : κ → ν → ν → Duplication α} {earlier : List (Prompt α)} {keys : Token α → List κ}
  {ts : List (Spanned (Token α))} {ds : List (Declaration κ ν)} {rs : List (Ruling α κ ν)}
  {ruling : Ruling α κ ν}

/-- A ruling with a call is on a line that declares its key again. -/
theorem pointsAt_of_call (P : Ruling α κ ν → Prop) (ruled : Ruled prompter ask earlier rs)
    (hds : DeclaredBy keys ts ds) (upTo : rs.map Ruling.declaration <+: ds) (hmem : ruling ∈ rs)
    (hcall : ruling.call.isSome = true) (hP : P ruling) :
    PointsAt ts ruling.declaration.span fun before t =>
      Redeclares keys rs P before t ruling.declaration.key := by
  obtain ⟨call, hcall⟩ := Option.isSome_iff_exists.1 hcall
  obtain ⟨done, others, rfl⟩ := List.append_of_mem hmem
  obtain ⟨rest, rfl⟩ := upTo
  obtain ⟨-, q, hq, hkey⟩ := ruled.of_call hcall
  rw [List.map_append, List.map_cons, List.append_assoc, List.cons_append] at hds
  obtain ⟨before, t, first, later, hupTo, hspan, hkeys, hdone⟩ := hds.exists_line
  refine ⟨before, t, hupTo, hspan, first, later, ruling, hkeys, ?_, ?_, hP⟩
  · rw [← hdone, ← hkey]
    exact List.mem_map_of_mem (List.mem_map_of_mem hq)
  · rw [← hdone]
    simp

theorem pointsAt_of_mem_duplicateWarnings (ruled : Ruled prompter ask earlier rs)
    (hds : DeclaredBy keys ts ds) (upTo : rs.map Ruling.declaration <+: ds) {w : Spanned Warning}
    (hw : w ∈ duplicateWarnings rs) : ∃ k older newer, w.content = (ask k older newer).warning ∧
      PointsAt ts w.span fun before t =>
        Redeclares keys rs (fun d => d.warning? = some ⟨w.content, t.span⟩) before t k := by
  obtain ⟨ruling, hmem, hwarning⟩ := List.mem_filterMap.1 hw
  obtain ⟨call, hcall, rfl⟩ := Ruling.exists_of_warning? hwarning
  obtain ⟨done, others, hsplit⟩ := List.append_of_mem hmem
  obtain ⟨⟨older, hask⟩, -⟩ := (hsplit ▸ ruled).of_call hcall
  refine ⟨ruling.declaration.key, older, ruling.declaration.value,
    congrArg Duplication.warning hask, ?_⟩
  have hpoints := pointsAt_of_call (fun d => d.warning? = some ⟨_, ruling.declaration.span⟩) ruled hds
    upTo hmem (Option.isSome_of_eq_some hcall) hwarning
  refine hpoints.imp fun before t hspan h => ?_
  rwa [hspan]

theorem HaltsAt.pointsAt {d : Declaration κ ν} (h : HaltsAt prompter ask earlier ds rs d)
    (hds : DeclaredBy keys ts ds) :
    PointsAt ts d.span fun before t => Redeclares keys rs Ruling.Halts before t d.key := by
  obtain ⟨ruling, hlast, rfl, halts⟩ := h.last
  have hcall : ruling.call.isSome = true := by
    rw [← Option.isSome_map]
    exact Option.isSome_of_eq_some halts
  exact pointsAt_of_call Ruling.Halts h.ruled hds h.upTo (List.mem_of_getLast? hlast) hcall halts

end Repetitions

/-! ## Slides -/

/-- An edge is an object on a slide message. -/
theorem pointsAt_of_mem_edgesOn {measures : MeasureTimeline α} {ts : List (Spanned (Token α))}
    {channel : Nat} {x : SlideEdge α} (h : x ∈ edgesOn channel (laneLines measures ts)) :
    PointsAt ts x.span fun _ t => t.content.HasEdge x.slot.high.val channel x.slot.time := by
  obtain ⟨slots, hline, hslot⟩ := exists_slides_of_mem_edgesOn h
  obtain ⟨track, payload, hmem, rfl⟩ := slides_mem_laneLines_iff.1 hline
  obtain ⟨i, sounds, ⟨hi, htime⟩, -⟩ := Slot.mem_decode.1 hslot
  exact pointsAt_of_mem (fun t => t.content.HasEdge x.slot.high.val channel x.slot.time) hmem
    ⟨track, x.lane, payload, ⟨i, hi⟩, x.slot.high, x.slot.low, rfl, sounds, rfl, htime⟩

/-! ## Charts -/

namespace Chart

variable {prompter : Prompter α} {ts : List (Spanned (Token α))} {r : Rulings α}

/-- A definition that is kept is the definition of some line. -/
theorem DefinitionsSettled.pointsAt (h : DefinitionsSettled prompter ts r) {id : BpmId}
    {bpm : Spanned (Finite α)} (hkept : (keptAfter r.definitions)[id]? = some bpm) :
    PointsAt ts bpm.span fun _ t => DefinesKept r id t := by
  have hdeclared := h.definitions.ruled.grounded.declared id bpm hkept
  rw [h.definitions.complete, mem_bpmDeclarations_iff] at hdeclared
  exact pointsAt_of_mem (DefinesKept r id) hdeclared ⟨bpm.content, rfl, hkept⟩

namespace MadeOf

variable {defs : List (Definition α)} {chart : Chart α}

/-- Each warning of an accepted chart is about the line at its span. -/
theorem pointsAt (m : MadeOf prompter ts r defs chart) {w : Spanned Warning}
    (hw : w ∈ chart.warnings) : PointsAt ts w.span (w.content.IsAbout r) := by
  have settled := m.course.definitionsSettled
  have placed := m.course.placementsSettled
  obtain ⟨w, span⟩ := w
  rw [m.warnings, List.mem_append, List.mem_append, Rulings.duplicateWarnings, List.mem_append,
    List.mem_append] at hw
  rcases hw with (((hw | hw) | hw) | hw) | hw
  · obtain ⟨track, older, newer, heq, hpoints⟩ := pointsAt_of_mem_duplicateWarnings
      settled.beats.ruled (declaredBy_beats ts) settled.beats.upTo hw
    obtain rfl : w = .duplicateBeatsPerMeasure track := heq
    exact hpoints
  · obtain ⟨id, older, newer, heq, hpoints⟩ := pointsAt_of_mem_duplicateWarnings
      settled.definitions.ruled (declaredBy_definitions ts) settled.definitions.upTo hw
    obtain rfl : w = .duplicateBpmDefinition id := heq
    exact hpoints
  · obtain ⟨id, older, newer, heq, hpoints⟩ := pointsAt_of_mem_duplicateWarnings
      placed.ruled (declaredBy_placements r.measures ts) placed.upTo hw
    obtain rfl : w = .duplicateBpmPlacement id := heq
    exact hpoints
  · obtain ⟨d, hd, heq | heq⟩ := exists_of_mem_tempoChanges hw
    · cases heq
      exact settled.pointsAt (m.kept_of_mem hd)
    · cases heq
      exact settled.pointsAt (m.kept_of_mem hd)
  · cases w with
    | unclosedSlide channel time =>
      obtain ⟨x, hx, hstart, rfl, rfl⟩ := exists_of_mem_unclosed hw
      have hpoints := pointsAt_of_mem_edgesOn hx
      rwa [show x.slot.high.val = 1 from hstart] at hpoints
    | unmatchedSlideEnd channel time =>
      obtain ⟨y, hy, hend, rfl, rfl⟩ := exists_of_mem_unmatched hw
      have hpoints := pointsAt_of_mem_edgesOn hy
      rwa [show y.slot.high.val = 2 from hend] at hpoints
    | _ => cases Assembly.onSlides_assemble _ _ hw

end MadeOf

/-- Of two definitions of a name the older is kept.  That the name is defined again is said of the second
line, and that it counts from the beginning of the first. -/
example : (ofTokens (Prompter.always (.keep .older true))
    [⟨.bpmDefinition ⟨1⟩ ⟨(90 : Float), by decide⟩, ⟨0, 10⟩⟩,
      ⟨.bpmDefinition ⟨1⟩ ⟨(80 : Float), by decide⟩, ⟨11, 21⟩⟩]).result.map Chart.warnings =
        .ok [⟨.duplicateBpmDefinition ⟨1⟩, ⟨11, 21⟩⟩, ⟨.implicitInitialBpm ⟨1⟩, ⟨0, 10⟩⟩] := by
  decide +kernel

/-- An error that stops the course is about the line at its span. -/
theorem Course.pointsAt {e : Spanned ParseError} (h : Course prompter ts r (some e)) :
    PointsAt ts e.span (e.content.IsAbout ts r) := by
  cases h with
  | beatsHalted beats =>
    exact (beats.pointsAt (declaredBy_beats ts)).imp fun _ _ _ h => .inl ⟨_, h⟩
  | definitionHalted beats definitions =>
    exact (definitions.pointsAt (declaredBy_definitions ts)).imp fun _ _ _ h => .inr (.inl ⟨_, h⟩)
  | placementHalted before placements defined =>
    exact (placements.pointsAt (declaredBy_placements r.measures ts)).imp
      fun _ _ _ h => .inr (.inr ⟨_, h⟩)
  | undefinedBpm before split placements defined undefined =>
    have hds := declaredBy_placements r.measures ts
    rw [split] at hds
    obtain ⟨before, t, earlier, later, hupTo, hspan, hkeys, -⟩ := hds.exists_line
    exact ⟨before, t, hupTo, hspan, hkeys ▸ by simp, undefined⟩

end Chart

/-! ## Texts -/

namespace Chart

/-- The span is that of a line of the text, and of no other one, and a diagnostic is about the token of
this line. -/
def PointsAtLine (source : List Char) (ts : List (Spanned (Token Float))) (span : Span)
    (about : List (Spanned (Token Float)) → Spanned (Token Float) → Prop) : Prop :=
  PointsAt ts span fun before t =>
    (∃ p, IsLineAt source p span ∧ ReadFrom source t p) ∧ about before t

theorem pointsAtLine {source : List Char} {ts : List (Spanned (Token Float))} {span : Span}
    {about : List (Spanned (Token Float)) → Spanned (Token Float) → Prop}
    (hscan : scan source = .ok ts) (h : PointsAt ts span about) :
    PointsAtLine source ts span about := by
  obtain ⟨before, t, hupTo, rfl, habout⟩ := h
  exact ⟨before, t, hupTo, rfl, exists_isLineAt hscan (hupTo.subset (by simp)), habout⟩

/-- How a reading of a text points at its lines. -/
inductive Located (prompter : Prompter Float) (source : List Char) :
    Except ChartError (Chart Float) → Prop
  /-- A line is malformed. -/
  | lex {e before p} (malformed : Malformed source e before p) :
      Located prompter source (.error (.lex e))
  /-- No line defines a BPM, so there is no line to point at. -/
  | noDefinition {ts} (scanned : scan source = .ok ts) (undefined : ∀ id, ¬ Defines ts id) :
      Located prompter source (.error (.parse ⟨.noBpmDefinition, ⟨0, 0⟩⟩))
  | parse {e ts r stopped} (scanned : scan source = .ok ts) (course : Course prompter ts r stopped)
      (points : PointsAtLine source ts e.span (e.content.IsAbout ts r)) :
      Located prompter source (.error (.parse e))
  | accepted {chart ts r} (scanned : scan source = .ok ts) (course : Course prompter ts r none)
      (points : ∀ w ∈ chart.warnings, PointsAtLine source ts w.span (w.content.IsAbout r)) :
      Located prompter source (.ok chart)

theorem Failure.located {prompter : Prompter Float} {source : List Char}
    {ts : List (Spanned (Token Float))} {e : Spanned ParseError} (h : Failure prompter ts e)
    (hscan : scan source = .ok ts) : Located prompter source (.error (.parse e)) := by
  cases h with
  | stopped course => exact .parse hscan course (pointsAtLine hscan course.pointsAt)
  | nonPositive course kept le lowest =>
    have hpoints := course.definitionsSettled.pointsAt kept
    exact .parse hscan course (pointsAtLine hscan hpoints)
  | noDefinition course undefined => exact .noDefinition hscan undefined

/-- Each diagnostic of a text points at the line that it is about. -/
theorem read_located (prompter : Prompter Float) (source : List Char) :
    Located prompter source (read prompter source).result := by
  unfold read
  cases hscan : scan source with
  | error e =>
    obtain ⟨before, p, malformed⟩ := exists_malformed hscan
    exact .lex malformed
  | ok ts =>
    change Located prompter source ((ofTokens prompter ts).result.mapError .parse)
    rcases exists_failure_or_accepted prompter ts with ⟨e, failure⟩ | ⟨chart, _, _, hok, -⟩
    · rw [failure.result_eq]
      exact failure.located hscan
    · obtain ⟨r, defs, m⟩ := exists_madeOf hok
      rw [hok]
      exact .accepted hscan m.course fun w hw => pointsAtLine hscan (m.pointsAt hw)

end Chart

end RhythmChart
