import RhythmChart.Proofs.Coupling
import RhythmChart.Proofs.Repetitions

/-!
# Answers that differ in warnings only

Two prompters are `Alike` if, after the same calls, their answers are the same but for the warnings they
ask for.  Reading a chart with the one and with the other goes in lockstep (`Lockstep`): at each step both
hold the same values, have made the same calls and have given the same warnings, those about repetitions
apart.  `ofTokens_of_alike` says what follows for the two charts.
-/

namespace RhythmChart

variable {α : Type} [Scalar α]

/-! ## Answers without their warnings -/

/-- The answer without a warning. -/
def Choice.silenced : Choice → Choice
  | .keep version _ => .keep version false
  | .halt => .halt

/-- The call, its answer without a warning. -/
def Prompt.silenced (q : Prompt α) : Prompt α := ⟨q.duplication, q.choice.silenced⟩

theorem Choice.silenced_eq_halt {c : Choice} (h : Choice.halt.silenced = c.silenced) : c = .halt := by
  cases c with
  | keep version warned => cases h
  | halt => rfl

theorem Choice.silenced_eq_keep {c : Choice} {version : Version} {warned : Bool}
    (h : (Choice.keep version warned).silenced = c.silenced) : ∃ warned', c = .keep version warned' := by
  cases c with
  | keep version' warned' =>
    cases h
    exact ⟨warned', rfl⟩
  | halt => cases h

namespace Prompter

/-- The calls of a prompter that is asked about some duplications, the latest first. -/
def history (prompter : Prompter α) : List (Duplication α) → List (Prompt α)
  | [] => []
  | d :: ds => ⟨d, prompter (prompter.history ds) d⟩ :: prompter.history ds

/-- After the same calls the answers are the same, their warnings apart. -/
def Alike (p q : Prompter α) : Prop :=
  ∀ ds d, (p (p.history ds) d).silenced = (q (q.history ds) d).silenced

theorem length_history (prompter : Prompter α) (ds : List (Duplication α)) :
    (prompter.history ds).length = ds.length := by
  induction ds with
  | nil => rfl
  | cons d ds ih => rw [history, List.length_cons, ih, List.length_cons]

/-- The calls of prompters that answer alike differ in warnings only. -/
theorem Alike.map_silenced {p q : Prompter α} (h : p.Alike q) (ds : List (Duplication α)) :
    (p.history ds).map Prompt.silenced = (q.history ds).map Prompt.silenced := by
  induction ds with
  | nil => rfl
  | cons d ds ih =>
    rw [history, history, List.map_cons, List.map_cons, ih, Prompt.silenced, Prompt.silenced, h ds d]

/-- Lists of answers that differ in warnings only. -/
theorem alike_ofList {cs cs' : List Choice} (h : cs.map Choice.silenced = cs'.map Choice.silenced) :
    (ofList cs : Prompter α).Alike (ofList cs') := by
  intro ds d
  have hget (cs : List Choice) (n : Nat) : (cs.getD n (.keep .newer false)).silenced =
      (cs.map Choice.silenced).getD n (.keep .newer false) := by
    rw [List.getD_eq_getElem?_getD, List.getD_eq_getElem?_getD, List.getElem?_map]
    cases cs[n]? <;> rfl
  rw [ofList, ofList, length_history, length_history, hget, hget, h]

end Prompter

/-! ## Steps in lockstep -/

/-- The warnings that are not about repetitions. -/
def otherWarnings (ws : List (Spanned Warning)) : List (Spanned Warning) :=
  ws.filter fun w => !w.content.isDuplicate

theorem otherWarnings_append (ws ws' : List (Spanned Warning)) :
    otherWarnings (ws ++ ws') = otherWarnings ws ++ otherWarnings ws' :=
  List.filter_append ..

theorem otherWarnings_duplicate (d : Duplication α) (span : Span) :
    otherWarnings [⟨d.warning, span⟩] = [] := by
  cases d <;> rfl

/-- The same calls were made, and the same warnings given, those about repetitions apart. -/
structure Log.Alike (p q : Prompter α) (log log' : Log α) : Prop where
  prompts : ∃ ds, log.prompts = p.history ds ∧ log'.prompts = q.history ds
  warnings : otherWarnings log.warnings = otherWarnings log'.warnings

/-- From logs that are alike the two computations come to the same end, and leave logs that are alike. -/
def Lockstep {β : Type} (p q : Prompter α) (x y : Settling α β) : Prop :=
  ∀ log log', Log.Alike p q log log' →
    (x.run.run log).1 = (y.run.run log').1 ∧ Log.Alike p q (x.run.run log).2 (y.run.run log').2

namespace Lockstep

variable {β γ : Type} {p q : Prompter α}

theorem pure (b : β) : Lockstep p q (Pure.pure b) (Pure.pure b) := fun _ _ h => ⟨rfl, h⟩

theorem stop (e : ParseError) (span : Span) :
    Lockstep (β := β) p q (RhythmChart.stop e span) (RhythmChart.stop e span) := fun _ _ h => ⟨rfl, h⟩

/-- Lockstep is the coupling of computations that come to the same. -/
theorem iff_coupled {x y : Settling α β} : Lockstep p q x y ↔ Coupled (Log.Alike p q) Eq Eq x y := by
  simp only [Lockstep, Coupled, ExceptRel.eq_iff]

theorem bind {x y : Settling α β} {f g : β → Settling α γ} (hx : Lockstep p q x y)
    (hf : ∀ b, Lockstep p q (f b) (g b)) : Lockstep p q (x >>= f) (y >>= g) := by
  refine iff_coupled.2 ((iff_coupled.1 hx).bind ?_)
  rintro b _ rfl
  exact iff_coupled.1 (hf b)

theorem foldlM {f g : β → γ → Settling α β} (hf : ∀ b c, Lockstep p q (f b c) (g b c)) (b : β)
    (cs : List γ) : Lockstep p q (cs.foldlM f b) (cs.foldlM g b) := by
  have hcs : List.Forall₂ Eq cs cs := List.forall₂_same.2 fun _ _ => rfl
  refine iff_coupled.2 (Coupled.foldlM ?_ rfl hcs)
  rintro b _ c _ rfl rfl
  exact iff_coupled.1 (hf b c)

theorem mapM {f g : γ → Settling α β} (hf : ∀ c, Lockstep p q (f c) (g c)) (cs : List γ) :
    Lockstep p q (cs.mapM f) (cs.mapM g) := by
  have hcs : List.Forall₂ Eq cs cs := List.forall₂_same.2 fun _ _ => rfl
  refine iff_coupled.2 (List.forall₂_eq_eq_eq ▸ Coupled.mapM ?_ hcs)
  rintro c _ rfl
  exact iff_coupled.1 (hf c)

/-- Warnings that are the same but for those about repetitions. -/
theorem warn {ws ws' : List (Spanned Warning)} (h : otherWarnings ws = otherWarnings ws') :
    Lockstep p q (RhythmChart.warn ws) (RhythmChart.warn ws') := by
  intro log log' hlog
  refine ⟨rfl, hlog.prompts, ?_⟩
  have hreverse (ws : List (Spanned Warning)) :
      otherWarnings ws.reverse = (otherWarnings ws).reverse := List.filter_reverse ..
  change otherWarnings (ws.reverse ++ log.warnings) = otherWarnings (ws'.reverse ++ log'.warnings)
  rw [otherWarnings_append, otherWarnings_append, hreverse, hreverse, h, hlog.warnings]

/-- A call about a repetition: the logs are alike with it. -/
theorem alike_call {log log' : Log α} (h : Log.Alike p q log log') (d : Duplication α) :
    Log.Alike p q ⟨⟨d, p log.prompts d⟩ :: log.prompts, log.warnings⟩
      ⟨⟨d, q log'.prompts d⟩ :: log'.prompts, log'.warnings⟩ := by
  obtain ⟨ds, hp, hq⟩ := h.prompts
  refine ⟨⟨d :: ds, ?_, ?_⟩, h.warnings⟩
  · rw [hp]
    rfl
  · rw [hq]
    rfl

theorem consult (h : p.Alike q) (d : Duplication α) (span : Span) :
    Lockstep p q (RhythmChart.consult p d span) (RhythmChart.consult q d span) := by
  intro log log' hlog
  have hcall := alike_call hlog d
  obtain ⟨ds, hp, hq⟩ := hlog.prompts
  have hchoice : (p log.prompts d).silenced = (q log'.prompts d).silenced := by
    rw [hp, hq]
    exact h ds d
  have hwarned (warned : Bool) (ws : List (Spanned Warning)) :
      otherWarnings ((if warned then [⟨d.warning, span⟩] else []) ++ ws) = otherWarnings ws := by
    rw [otherWarnings_append]
    cases warned
    · rfl
    · exact congrArg (· ++ otherWarnings ws) (otherWarnings_duplicate d span)
  cases hc : p log.prompts d with
  | halt =>
    rw [hc] at hchoice
    have hc' := Choice.silenced_eq_halt hchoice
    rw [hc, hc'] at hcall
    rw [run_consult_of_halt hc, run_consult_of_halt hc']
    exact ⟨rfl, hcall⟩
  | keep version warned =>
    rw [hc] at hchoice
    obtain ⟨warned', hc'⟩ := Choice.silenced_eq_keep hchoice
    rw [hc, hc'] at hcall
    rw [run_consult_of_keep hc, run_consult_of_keep hc']
    refine ⟨rfl, hcall.prompts, ?_⟩
    rw [hwarned, hwarned]
    exact hcall.warnings

section Declarations

variable {κ ν : Type} [Ord κ] {ask : κ → ν → ν → Duplication α}

theorem declare (h : p.Alike q) (kept : Kept κ ν) (d : Declaration κ ν) :
    Lockstep p q (RhythmChart.declare p ask kept d) (RhythmChart.declare q ask kept d) := by
  unfold RhythmChart.declare
  split
  · exact pure _
  · refine (consult h _ d.span).bind fun version => ?_
    cases version <;> exact pure _

theorem settle (h : p.Alike q) (ds : List (Declaration κ ν)) :
    Lockstep p q (RhythmChart.settle p ask ds) (RhythmChart.settle q ask ds) :=
  foldlM (declare h) ∅ ds

end Declarations

theorem settlePlacements (h : p.Alike q) (defined : Kept BpmId (Finite α))
    (ds : List (Declaration BpmId (Placement α))) :
    Lockstep p q (RhythmChart.settlePlacements p defined ds)
      (RhythmChart.settlePlacements q defined ds) := by
  refine foldlM (fun kept d => ?_) ∅ ds
  split
  · exact declare h kept d
  · exact stop _ _

theorem definition (id : BpmId) (bpm : Spanned (Finite α)) :
    Lockstep p q (RhythmChart.definition id bpm) (RhythmChart.definition id bpm) := by
  unfold RhythmChart.definition
  cases bpm.content.positive? with
  | none => exact stop _ _
  | some positive => exact pure _

theorem definitions (kept : Kept BpmId (Finite α)) :
    Lockstep p q (RhythmChart.definitions kept) (RhythmChart.definitions kept) :=
  mapM (fun e => definition e.1 e.2) kept.toList

theorem settleChanges (ds : List (Definition α)) (placed : Kept BpmId (Placement α)) :
    Lockstep p q (RhythmChart.settleChanges ds placed) (RhythmChart.settleChanges ds placed) := by
  refine (warn rfl).bind fun _ => ?_
  split
  · cases ds with
    | nil => exact stop _ _
    | cons d rest => exact (warn rfl).bind fun _ => pure _
  · exact pure _

theorem assembleSong (h : p.Alike q) (measures : MeasureTimeline α) (c : Collected α) :
    Lockstep p q (Chart.assembleSong p measures c) (Chart.assembleSong q measures c) := by
  refine (settlePlacements h c.defined _).bind fun placed => (definitions c.defined).bind fun defs => ?_
  refine (settleChanges defs placed).bind fun changes => ?_
  split
  · exact stop _ _
  · exact (warn rfl).bind fun _ => pure _

theorem resolve (h : p.Alike q) (ts : List (Spanned (Token α))) :
    Lockstep p q (Chart.resolve p ts) (Chart.resolve q ts) := by
  rw [Chart.resolve_eq_stages, Chart.resolve_eq_stages]
  exact (settle h _).bind fun beats => (settle h _).bind fun defined => assembleSong h _ _

end Lockstep

/-! ## Charts -/

namespace Chart

/-- The charts that two readings come to are the same but for warnings about repetitions. -/
inductive SameButDuplicates :
    Except (Spanned ParseError) (Chart α) → Except (Spanned ParseError) (Chart α) → Prop
  | error (e : Spanned ParseError) : SameButDuplicates (.error e) (.error e)
  | ok {chart chart' : Chart α} (song : chart.song = chart'.song)
      (warnings : otherWarnings chart.warnings = otherWarnings chart'.warnings) :
      SameButDuplicates (.ok chart) (.ok chart')

/-- Asking for a warning shows in the list of warnings alone: prompters that answer alike are called
alike, and the charts come to the same error, or to the same song with the same warnings, those about
repetitions apart. -/
theorem ofTokens_of_alike {p q : Prompter α} (h : p.Alike q) (ts : List (Spanned (Token α))) :
    (ofTokens p ts).prompts.map Prompt.silenced = (ofTokens q ts).prompts.map Prompt.silenced ∧
      SameButDuplicates (ofTokens p ts).result (ofTokens q ts).result := by
  have hempty : Log.Alike p q .empty .empty := ⟨⟨[], rfl, rfl⟩, rfl⟩
  obtain ⟨hresult, ⟨ds, hp, hq⟩, hwarnings⟩ := Lockstep.resolve h ts _ _ hempty
  unfold ofTokens
  generalize (resolve p ts).run.run Log.empty = x at *
  generalize (resolve q ts).run.run Log.empty = y at *
  obtain ⟨result, log⟩ := x
  obtain ⟨result', log'⟩ := y
  dsimp only at hresult hp hq hwarnings ⊢
  subst hresult
  refine ⟨?_, ?_⟩
  · rw [hp, hq, List.map_reverse, List.map_reverse, h.map_silenced]
  · cases result with
    | error e => exact .error e
    | ok song =>
      refine .ok rfl ?_
      change List.filter _ _ = List.filter _ _
      rw [List.filter_reverse, List.filter_reverse]
      exact congrArg List.reverse hwarnings

/-- Three definitions of one name.  The second call comes after different answers of the two prompters,
and asks about the same values. -/
theorem ofTokens_of_alike_of_two_calls :
    let ts : List (Spanned (Token Float)) := [⟨.bpmDefinition ⟨1⟩ Finite.four, ⟨0, 9⟩⟩,
      ⟨.bpmDefinition ⟨1⟩ ⟨5, by decide⟩, ⟨10, 19⟩⟩, ⟨.bpmDefinition ⟨1⟩ ⟨6, by decide⟩, ⟨20, 29⟩⟩]
    SameButDuplicates (ofTokens (.ofList [.keep .older true, .keep .newer false]) ts).result
      (ofTokens (.ofList [.keep .older false, .keep .newer true]) ts).result := by
  intro ts
  have halike : (Prompter.ofList [.keep .older true, .keep .newer false] : Prompter Float).Alike
      (.ofList [.keep .older false, .keep .newer true]) := Prompter.alike_ofList rfl
  exact (ofTokens_of_alike halike ts).2

end Chart

end RhythmChart
