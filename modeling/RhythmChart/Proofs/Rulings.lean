import Mathlib.Data.Finset.Card
import Mathlib.Data.List.Induction
import RhythmChart.Proofs.Settling

/-!
# Rulings on repeated declarations

What settling does with one declaration is its ruling: whether the prompter was called, and with which
answer.  `Ruled` gives the two rules.  The first declaration of a key is kept without a call.  For each
later one there is one call, about the value kept so far and the incoming one.  A ruling that halts is
the last.

The values kept, the calls and the warnings are read off the rulings (`keptAfter`, `calls`,
`duplicateWarnings`); the warnings are about the keys of the declarations (`Ruled.duplicateWarnings_eq`).
`Settles` and `HaltsAt` are the two ends that settling can come to; `exists_settles_or_haltsAt` shows that
it comes to one of them, and `Settles.yields` and `HaltsAt.stops` that it computes what the rulings say.
-/

namespace RhythmChart

variable {α : Type} [Scalar α]

/-! ## Computations that stop -/

/-- The log after some calls of the prompter and some warnings, both in the order of time. -/
def Log.ofHistory (prompts : List (Prompt α)) (warnings : List (Spanned Warning)) : Log α :=
  ⟨prompts.reverse, warnings.reverse⟩

/-- The computation stops with an error, and leaves a log. -/
def Stops {β : Type} (x : Settling α β) (log : Log α) (e : Spanned ParseError) (log' : Log α) :
    Prop :=
  x.run.run log = (.error e, log')

namespace Yields

variable {β γ : Type} {x : Settling α β} {f : β → Settling α γ} {b : β} {c : γ}
  {log log' log'' : Log α}

theorem run_bind_eq (h : Yields x log b log') : (x >>= f).run.run log = (f b).run.run log' := by
  rw [run_bind, show x.run.run log = (.ok b, log') from h]

theorem bind (hx : Yields x log b log') (hf : Yields (f b) log' c log'') :
    Yields (x >>= f) log c log'' :=
  hx.run_bind_eq.trans hf

end Yields

namespace Stops

variable {β γ : Type} {x : Settling α β} {f : β → Settling α γ} {b : β} {e : Spanned ParseError}
  {log log' log'' : Log α}

theorem bind (h : Stops x log e log') : Stops (x >>= f) log e log' := by
  unfold Stops
  rw [Yields.run_bind, show x.run.run log = (.error e, log') from h]

theorem bind_of_yields (hx : Yields x log b log') (h : Stops (f b) log' e log'') :
    Stops (x >>= f) log e log'' :=
  hx.run_bind_eq.trans h

end Stops

/-! ## Rulings -/

/-- The call of the prompter about a repetition, after some earlier calls. -/
def Prompter.call (prompter : Prompter α) (earlier : List (Prompt α))
    (duplication : Duplication α) : Prompt α :=
  ⟨duplication, prompter earlier.reverse duplication⟩

/-- What settling did with a declaration: whether it called the prompter, and with which answer. -/
structure Ruling (α κ ν : Type) [Scalar α] where
  declaration : Declaration κ ν
  call : Option (Prompt α)

variable {κ ν : Type}

namespace Ruling

def choice? (r : Ruling α κ ν) : Option Choice := r.call.map Prompt.choice

def Halts (r : Ruling α κ ν) : Prop := r.choice? = some .halt

/-- The declared value becomes the one kept: it is the first of its key, or the answer is for it. -/
def Takes (r : Ruling α κ ν) : Prop :=
  r.call = none ∨ ∃ warned, r.choice? = some (.keep .newer warned)

instance (r : Ruling α κ ν) : Decidable r.Takes :=
  match r with
  | ⟨_, none⟩ => .isTrue (.inl rfl)
  | ⟨_, some ⟨_, .keep .newer warned⟩⟩ => .isTrue (.inr ⟨warned, rfl⟩)
  | ⟨_, some ⟨_, .keep .older _⟩⟩ => .isFalse (by simp [Takes, choice?])
  | ⟨_, some ⟨_, .halt⟩⟩ => .isFalse (by simp [Takes, choice?])

/-- The warning that the answer asks for, at the place of the declaration. -/
def warning? (r : Ruling α κ ν) : Option (Spanned Warning) :=
  match r.call with
  | some ⟨duplication, .keep _ true⟩ => some ⟨duplication.warning, r.declaration.span⟩
  | _ => none

/-- The answer asks for a warning. -/
def Warns (r : Ruling α κ ν) : Prop := ∃ version, r.choice? = some (.keep version true)

instance (r : Ruling α κ ν) : Decidable r.Warns :=
  match r with
  | ⟨_, some ⟨_, .keep version true⟩⟩ => .isTrue ⟨version, rfl⟩
  | ⟨_, some ⟨_, .keep _ false⟩⟩ => .isFalse (by simp [Warns, choice?])
  | ⟨_, some ⟨_, .halt⟩⟩ => .isFalse (by simp [Warns, choice?])
  | ⟨_, none⟩ => .isFalse (by simp [Warns, choice?])

theorem warning?_eq (r : Ruling α κ ν) {w : Warning}
    (hcall : ∀ call, r.call = some call → call.duplication.warning = w) :
    r.warning? = if r.Warns then some ⟨w, r.declaration.span⟩ else none := by
  match r, hcall with
  | ⟨_, none⟩, _ => rfl
  | ⟨_, some ⟨_, .halt⟩⟩, _ => rfl
  | ⟨_, some ⟨_, .keep _ false⟩⟩, _ => rfl
  | ⟨_, some ⟨_, .keep _ true⟩⟩, hcall =>
    rw [← hcall _ rfl]
    rfl

/-- A warning is about the repetition that the call asked about. -/
theorem exists_of_warning? {r : Ruling α κ ν} {w : Spanned Warning} (h : r.warning? = some w) :
    ∃ call, r.call = some call ∧ w = ⟨call.duplication.warning, r.declaration.span⟩ := by
  unfold warning? at h
  split at h
  · next hcall =>
    cases h
    exact ⟨_, hcall, rfl⟩
  · cases h

def applyTo [Ord κ] (r : Ruling α κ ν) (kept : Kept κ ν) : Kept κ ν :=
  if r.Takes then kept.insert r.declaration.key ⟨r.declaration.value, r.declaration.span⟩ else kept

theorem applyTo_none [Ord κ] (d : Declaration κ ν) (kept : Kept κ ν) :
    (⟨d, none⟩ : Ruling α κ ν).applyTo kept = kept.insert d.key ⟨d.value, d.span⟩ :=
  if_pos (.inl rfl)

theorem applyTo_keep [Ord κ] (d : Declaration κ ν) (duplication : Duplication α) (version : Version)
    (warned : Bool) (kept : Kept κ ν) :
    (⟨d, some ⟨duplication, .keep version warned⟩⟩ : Ruling α κ ν).applyTo kept =
      match version with
      | .older => kept
      | .newer => kept.insert d.key ⟨d.value, d.span⟩ := by
  cases version
  · exact if_neg (by simp [Takes, choice?])
  · exact if_pos (.inr ⟨warned, rfl⟩)

end Ruling

/-- The value kept for each key after some rulings: the last one that was taken. -/
def keptAfter [Ord κ] (rs : List (Ruling α κ ν)) : Kept κ ν :=
  rs.foldl (fun kept r => r.applyTo kept) ∅

/-- The calls of the prompter in some rulings, in order. -/
def calls (rs : List (Ruling α κ ν)) : List (Prompt α) := rs.filterMap Ruling.call

/-- The warnings that the answers in some rulings ask for, in order. -/
def duplicateWarnings (rs : List (Ruling α κ ν)) : List (Spanned Warning) :=
  rs.filterMap Ruling.warning?

/-- One warning for each answer that asks for it: about the key of the declaration, and at its place. -/
def warningsAbout (about : κ → Warning) (rs : List (Ruling α κ ν)) : List (Spanned Warning) :=
  (rs.filter fun r => decide r.Warns).map fun r => ⟨about r.declaration.key, r.declaration.span⟩

theorem keptAfter_concat [Ord κ] (rs : List (Ruling α κ ν)) (r : Ruling α κ ν) :
    keptAfter (rs ++ [r]) = r.applyTo (keptAfter rs) := by
  rw [keptAfter, List.foldl_append]
  rfl

theorem calls_concat (rs : List (Ruling α κ ν)) (r : Ruling α κ ν) :
    calls (rs ++ [r]) = calls rs ++ r.call.toList := by
  rw [calls, List.filterMap_append]
  cases h : r.call <;> simp [calls, h]

theorem duplicateWarnings_concat (rs : List (Ruling α κ ν)) (r : Ruling α κ ν) :
    duplicateWarnings (rs ++ [r]) = duplicateWarnings rs ++ r.warning?.toList := by
  rw [duplicateWarnings, List.filterMap_append]
  cases h : r.warning? <;> simp [duplicateWarnings, h]

/-! ## The rules -/

variable [Ord κ]

/-- The rulings follow the rules, after some earlier calls of the prompter. -/
inductive Ruled (prompter : Prompter α) (ask : κ → ν → ν → Duplication α)
    (earlier : List (Prompt α)) : List (Ruling α κ ν) → Prop
  | nil : Ruled prompter ask earlier []
  /-- The first declaration of a key is kept without a call. -/
  | first {rs : List (Ruling α κ ν)} {d : Declaration κ ν} (before : Ruled prompter ask earlier rs)
      (going : ∀ r ∈ rs, ¬ r.Halts) (new : ∀ r ∈ rs, r.declaration.key ≠ d.key) :
      Ruled prompter ask earlier (rs ++ [⟨d, none⟩])
  /-- A later one is kept by one call about the value kept so far and the incoming one. -/
  | repeated {rs : List (Ruling α κ ν)} {d : Declaration κ ν} {older : Spanned ν}
      (before : Ruled prompter ask earlier rs) (going : ∀ r ∈ rs, ¬ r.Halts)
      (holder : (keptAfter rs)[d.key]? = some older) :
      Ruled prompter ask earlier
        (rs ++ [⟨d, some (prompter.call (earlier ++ calls rs) (ask d.key older.content d.value))⟩])

variable {prompter : Prompter α} {ask : κ → ν → ν → Duplication α} {earlier : List (Prompt α)}
  {rs : List (Ruling α κ ν)}

namespace Ruled

variable [Std.TransOrd κ] [Std.LawfulEqOrd κ]

/-- The values kept are declared ones, and each key that was declared has one. -/
theorem grounded (h : Ruled prompter ask earlier rs) :
    Grounded (rs.map Ruling.declaration) (keptAfter rs) := by
  induction h with
  | nil => exact .empty
  | first before going new ih =>
    rw [List.map_append, keptAfter_concat]
    exact ih.insert _
  | repeated before going holder ih =>
    rw [List.map_append, keptAfter_concat]
    unfold Ruling.applyTo
    split
    · exact ih.insert _
    · exact ih.stay (Std.TreeMap.getElem?_eq_some_iff.1 holder).1

theorem mem_keptAfter_iff (h : Ruled prompter ask earlier rs) {k : κ} :
    k ∈ keptAfter rs ↔ ∃ r ∈ rs, r.declaration.key = k := by
  rw [h.grounded.mem_iff]
  simp only [List.mem_map, exists_exists_and_eq_and]

/-- A key has no value yet exactly when it was not declared. -/
theorem getElem?_eq_none_iff (h : Ruled prompter ask earlier rs) {k : κ} :
    (keptAfter rs)[k]? = none ↔ ∀ r ∈ rs, r.declaration.key ≠ k := by
  rw [← Option.not_isSome_iff_eq_none, ← Std.TreeMap.mem_iff_isSome_getElem?, h.mem_keptAfter_iff]
  simp only [not_exists, not_and, ne_eq]

/-- After rulings that do not halt, each declaration has a next one. -/
theorem exists_next (h : Ruled prompter ask earlier rs) (going : ∀ r ∈ rs, ¬ r.Halts)
    (d : Declaration κ ν) :
    ∃ r : Ruling α κ ν, r.declaration = d ∧ Ruled prompter ask earlier (rs ++ [r]) := by
  cases holder : (keptAfter rs)[d.key]? with
  | none => exact ⟨_, rfl, h.first going (h.getElem?_eq_none_iff.1 holder)⟩
  | some older => exact ⟨_, rfl, h.repeated going holder⟩

/-- The last ruling, by what was kept before it. -/
theorem of_concat {r : Ruling α κ ν} (h : Ruled prompter ask earlier (rs ++ [r])) :
    Ruled prompter ask earlier rs ∧ (∀ r ∈ rs, ¬ r.Halts) ∧
      (((keptAfter rs)[r.declaration.key]? = none ∧ r.call = none) ∨
        ∃ older, (keptAfter rs)[r.declaration.key]? = some older ∧
          r.call = some (prompter.call (earlier ++ calls rs)
            (ask r.declaration.key older.content r.declaration.value))) := by
  generalize hall : rs ++ [r] = all at h
  cases h with
  | nil => exact absurd hall (by simp)
  | first before going new =>
    obtain ⟨rfl, hr⟩ := List.append_inj' hall rfl
    cases List.singleton_inj.1 hr
    exact ⟨before, going, .inl ⟨before.getElem?_eq_none_iff.2 new, rfl⟩⟩
  | repeated before going holder =>
    obtain ⟨rfl, hr⟩ := List.append_inj' hall rfl
    cases List.singleton_inj.1 hr
    exact ⟨before, going, .inr ⟨_, holder, rfl⟩⟩

theorem of_append {rs' : List (Ruling α κ ν)} (h : Ruled prompter ask earlier (rs ++ rs')) :
    Ruled prompter ask earlier rs := by
  induction rs' using List.reverseRecOn with
  | nil => rwa [List.append_nil] at h
  | append_singleton rs' r ih =>
    rw [← List.append_assoc] at h
    exact ih h.of_concat.1

/-- A call is about a key that an earlier ruling is about, and asks about the declared value. -/
theorem of_call {before after : List (Ruling α κ ν)} {r : Ruling α κ ν} {call : Prompt α}
    (h : Ruled prompter ask earlier (before ++ r :: after)) (hcall : r.call = some call) :
    (∃ older, call.duplication = ask r.declaration.key older r.declaration.value) ∧
      ∃ q ∈ before, q.declaration.key = r.declaration.key := by
  rw [List.append_cons] at h
  obtain ⟨ruled, -, ⟨-, hnone⟩ | ⟨older, holder, hsome⟩⟩ := h.of_append.of_concat
  · rw [hnone] at hcall
    cases hcall
  · rw [hsome] at hcall
    cases hcall
    exact ⟨⟨older.content, rfl⟩,
      ruled.mem_keptAfter_iff.1 (Std.TreeMap.getElem?_eq_some_iff.1 holder).1⟩

/-- The warnings are those about the keys, if a question about a key gives the warning about it. -/
theorem duplicateWarnings_eq (h : Ruled prompter ask earlier rs) {about : κ → Warning}
    (habout : ∀ k older newer, (ask k older newer).warning = about k) :
    duplicateWarnings rs = warningsAbout about rs := by
  rw [duplicateWarnings, warningsAbout, ← List.filterMap_eq_map, List.filterMap_filter]
  refine List.filterMap_congr fun r hr => ?_
  obtain ⟨before, after, rfl⟩ := List.append_of_mem hr
  have hcall (call : Prompt α) (hcall : r.call = some call) :
      call.duplication.warning = about r.declaration.key := by
    obtain ⟨⟨older, hask⟩, -⟩ := h.of_call hcall
    rw [hask, habout]
  simp only [r.warning?_eq hcall, decide_eq_true_eq]
  rfl

/-- There are as many calls as declarations of keys that were declared before. -/
theorem length_calls [DecidableEq κ] (h : Ruled prompter ask earlier rs) :
    (calls rs).length + (rs.map fun r => r.declaration.key).toFinset.card = rs.length := by
  -- A call leaves the set of keys as it is, and each other ruling adds a key.
  have hkeys (rs : List (Ruling α κ ν)) (r : Ruling α κ ν) :
      ((rs ++ [r]).map fun r => r.declaration.key).toFinset =
        insert r.declaration.key (rs.map fun r => r.declaration.key).toFinset := by
    rw [List.map_append, List.toFinset_append, Finset.union_comm]
    rfl
  have hmem {rs : List (Ruling α κ ν)} {k : κ} :
      k ∈ (rs.map fun r => r.declaration.key).toFinset ↔ ∃ r ∈ rs, r.declaration.key = k := by
    rw [List.mem_toFinset, List.mem_map]
  induction h with
  | nil => rfl
  | first before going new ih =>
    rw [hkeys, Finset.card_insert_of_notMem fun h => ?_, calls_concat, List.length_append,
      List.length_append, ← ih]
    · exact (Nat.add_assoc _ _ 1).symm
    · obtain ⟨r, hr, hk⟩ := hmem.1 h
      exact new r hr hk
  | repeated before going holder ih =>
    have hold := before.mem_keptAfter_iff.1 (Std.TreeMap.getElem?_eq_some_iff.1 holder).1
    rw [hkeys, Finset.insert_eq_of_mem (hmem.2 hold), calls_concat, List.length_append,
      List.length_append, ← ih]
    exact Nat.add_right_comm _ 1 _

end Ruled

/-! ## Settling follows the rules -/

section Consult

variable {duplication : Duplication α} {span : Span}

/-- A question that the prompter answers by halting, after any log. -/
theorem run_consult_of_halt {log : Log α} (h : prompter log.prompts duplication = .halt) :
    (consult prompter duplication span).run.run log =
      (.error ⟨.halted, span⟩, ⟨⟨duplication, .halt⟩ :: log.prompts, log.warnings⟩) := by
  refine (Yields.run_bind_eq rfl).trans ((Yields.run_bind_eq rfl).trans ?_)
  rw [h]
  rfl

/-- A question that the prompter answers by a version, after any log. -/
theorem run_consult_of_keep {log : Log α} {version : Version} {warned : Bool}
    (h : prompter log.prompts duplication = .keep version warned) :
    (consult prompter duplication span).run.run log =
      (.ok version, ⟨⟨duplication, .keep version warned⟩ :: log.prompts,
        (if warned then [⟨duplication.warning, span⟩] else []) ++ log.warnings⟩) := by
  refine (Yields.run_bind_eq rfl).trans ((Yields.run_bind_eq rfl).trans ?_)
  rw [h]
  cases warned <;> rfl

variable {warnings : List (Spanned Warning)}

theorem stops_consult (h : prompter earlier.reverse duplication = .halt) :
    Stops (consult prompter duplication span) (.ofHistory earlier warnings) ⟨.halted, span⟩
      (.ofHistory (earlier ++ [⟨duplication, .halt⟩]) warnings) := by
  refine (run_consult_of_halt h : (consult prompter duplication span).run.run
    (.ofHistory earlier warnings) = _).trans ?_
  simp only [Log.ofHistory, List.reverse_append]
  rfl

theorem yields_consult {version : Version} {warned : Bool}
    (h : prompter earlier.reverse duplication = .keep version warned) :
    Yields (consult prompter duplication span) (.ofHistory earlier warnings) version
      (.ofHistory (earlier ++ [⟨duplication, .keep version warned⟩])
        (warnings ++ if warned then [⟨duplication.warning, span⟩] else [])) := by
  refine (run_consult_of_keep h : (consult prompter duplication span).run.run
    (.ofHistory earlier warnings) = _).trans ?_
  simp only [Log.ofHistory, List.reverse_append]
  cases warned <;> rfl

end Consult

theorem Yields.warn (new : List (Spanned Warning)) (prompts : List (Prompt α))
    (warnings : List (Spanned Warning)) :
    Yields (RhythmChart.warn new) (.ofHistory prompts warnings) ()
      (.ofHistory prompts (warnings ++ new)) := by
  simp only [Log.ofHistory, List.reverse_append]
  rfl

/-- The log when some rulings were made after some earlier calls and warnings. -/
def Log.after (earlier : List (Prompt α)) (warnings : List (Spanned Warning))
    (rs : List (Ruling α κ ν)) : Log α :=
  .ofHistory (earlier ++ calls rs) (warnings ++ duplicateWarnings rs)

namespace Ruled

variable [Std.TransOrd κ] [Std.LawfulEqOrd κ] {r : Ruling α κ ν} {warnings : List (Spanned Warning)}

/-- One declaration is settled as its ruling tells. -/
theorem yields_declare (h : Ruled prompter ask earlier (rs ++ [r])) (going : ¬ r.Halts) :
    Yields (declare prompter ask (keptAfter rs) r.declaration) (.after earlier warnings rs)
      (keptAfter (rs ++ [r])) (.after earlier warnings (rs ++ [r])) := by
  simp only [Log.after, calls_concat, duplicateWarnings_concat, keptAfter_concat,
    ← List.append_assoc]
  obtain ⟨d, call⟩ := r
  unfold declare
  obtain ⟨-, -, ⟨holder, rfl⟩ | ⟨older, holder, hcall⟩⟩ := h.of_concat
  · rw [holder, Ruling.applyTo_none, Yields.pure_iff]
    exact ⟨rfl, by simp [Ruling.warning?]⟩
  · dsimp only at holder hcall ⊢
    rw [holder]
    cases hchoice : prompter (earlier ++ calls rs).reverse (ask d.key older.content d.value) with
    | halt =>
      rw [hcall, Prompter.call, hchoice] at going
      exact absurd rfl going
    | keep version warned =>
      rw [hcall, Prompter.call, hchoice, Ruling.applyTo_keep]
      refine (yields_consult hchoice).bind ?_
      cases version <;> cases warned <;> rfl

/-- A declaration whose ruling halts ends the settling. -/
theorem stops_declare (h : Ruled prompter ask earlier (rs ++ [r])) (halts : r.Halts) :
    Stops (declare prompter ask (keptAfter rs) r.declaration) (.after earlier warnings rs)
      ⟨.halted, r.declaration.span⟩ (.after earlier warnings (rs ++ [r])) := by
  simp only [Log.after, calls_concat, duplicateWarnings_concat, ← List.append_assoc]
  obtain ⟨d, call⟩ := r
  unfold declare
  obtain ⟨-, -, ⟨holder, rfl⟩ | ⟨older, holder, hcall⟩⟩ := h.of_concat
  · cases halts
  · dsimp only at holder hcall ⊢
    rw [hcall] at halts
    have hchoice := Option.some.inj halts
    have hhalt : prompter.call (earlier ++ calls rs) (ask d.key older.content d.value) =
        ⟨ask d.key older.content d.value, .halt⟩ := congrArg (Prompt.mk _) hchoice
    rw [holder, hcall, hhalt]
    simpa [Ruling.warning?] using (stops_consult hchoice).bind

/-- Declarations are settled as their rulings tell. -/
theorem yields_foldlM (h : Ruled prompter ask earlier rs) (going : ∀ r ∈ rs, ¬ r.Halts) :
    Yields ((rs.map Ruling.declaration).foldlM (declare prompter ask) ∅)
      (.ofHistory earlier warnings) (keptAfter rs) (.after earlier warnings rs) := by
  induction rs using List.reverseRecOn with
  | nil =>
    simp only [Log.after, calls, duplicateWarnings, List.filterMap_nil, List.append_nil]
    rfl
  | append_singleton rs r ih =>
    obtain ⟨hrs, hgo, -⟩ := h.of_concat
    rw [List.map_append, List.foldlM_append]
    refine (ih hrs hgo).bind ?_
    rw [List.map_singleton, List.foldlM_cons]
    simp only [List.foldlM_nil, bind_pure]
    exact h.yields_declare (going r (by simp))

end Ruled

/-! ## The two ends of settling -/

/-- The declarations are settled to the last, by rulings that follow the rules. -/
structure Settles (prompter : Prompter α) (ask : κ → ν → ν → Duplication α)
    (earlier : List (Prompt α)) (ds : List (Declaration κ ν)) (rs : List (Ruling α κ ν)) : Prop where
  ruled : Ruled prompter ask earlier rs
  complete : rs.map Ruling.declaration = ds
  going : ∀ r ∈ rs, ¬ r.Halts

/-- The settling of the declarations halts at one of them. -/
structure HaltsAt (prompter : Prompter α) (ask : κ → ν → ν → Duplication α)
    (earlier : List (Prompt α)) (ds : List (Declaration κ ν)) (rs : List (Ruling α κ ν))
    (d : Declaration κ ν) : Prop where
  ruled : Ruled prompter ask earlier rs
  upTo : rs.map Ruling.declaration <+: ds
  last : ∃ r, rs.getLast? = some r ∧ r.declaration = d ∧ r.Halts

variable {ds : List (Declaration κ ν)} {warnings : List (Spanned Warning)}

theorem Settles.upTo (h : Settles prompter ask earlier ds rs) :
    rs.map Ruling.declaration <+: ds :=
  h.complete ▸ List.prefix_rfl

theorem Settles.choice_ne_halt (h : Settles prompter ask earlier ds rs) :
    ∀ q ∈ calls rs, q.choice ≠ .halt := by
  intro q hq halt
  obtain ⟨r, hr, hcall⟩ := List.mem_filterMap.1 hq
  apply h.going r hr
  rw [Ruling.Halts, Ruling.choice?, hcall, ← halt]
  rfl

variable [Std.TransOrd κ] [Std.LawfulEqOrd κ]

theorem Settles.yields (h : Settles prompter ask earlier ds rs) :
    Yields (settle prompter ask ds) (.ofHistory earlier warnings) (keptAfter rs)
      (.after earlier warnings rs) := by
  rw [← h.complete]
  exact h.ruled.yields_foldlM h.going

/-- Without a halt there are as many calls as declarations less the distinct keys. -/
theorem Settles.length_calls [DecidableEq κ] (h : Settles prompter ask earlier ds rs) :
    (calls rs).length + (ds.map Declaration.key).toFinset.card = ds.length := by
  have := h.ruled.length_calls
  rwa [← h.complete, List.map_map, List.length_map]

/-- The declarations before the one that halts are settled. -/
theorem HaltsAt.exists_before {d : Declaration κ ν} (h : HaltsAt prompter ask earlier ds rs d) :
    ∃ before r, rs = before ++ [r] ∧ r.declaration = d ∧ r.Halts ∧
      Settles prompter ask earlier (before.map Ruling.declaration) before := by
  obtain ⟨r, hlast, hd, halts⟩ := h.last
  obtain ⟨before, rfl⟩ := List.getLast?_eq_some_iff.1 hlast
  obtain ⟨ruled, going, -⟩ := h.ruled.of_concat
  exact ⟨before, r, rfl, hd, halts, ruled, rfl, going⟩

theorem HaltsAt.stops {d : Declaration κ ν} (h : HaltsAt prompter ask earlier ds rs d) :
    Stops (settle prompter ask ds) (.ofHistory earlier warnings) ⟨.halted, d.span⟩
      (.after earlier warnings rs) := by
  obtain ⟨before, r, rfl, rfl, halts, settled⟩ := h.exists_before
  obtain ⟨rest, rfl⟩ := h.upTo
  rw [settle, List.map_append, List.append_assoc, List.foldlM_append]
  refine .bind_of_yields settled.yields ?_
  rw [List.map_singleton, List.singleton_append, List.foldlM_cons]
  exact (h.ruled.stops_declare halts).bind

/-- Of the calls only the last one halts. -/
theorem HaltsAt.choice_ne_halt {d : Declaration κ ν} (h : HaltsAt prompter ask earlier ds rs d) :
    ∀ q ∈ (calls rs).dropLast, q.choice ≠ .halt := by
  obtain ⟨before, r, rfl, -, halts, settled⟩ := h.exists_before
  obtain ⟨last, hcall, -⟩ := Option.map_eq_some_iff.1 halts
  rw [calls_concat, hcall, Option.toList_some, List.dropLast_concat]
  exact settled.choice_ne_halt

/-- Settling goes through to the last declaration, or halts at one of them. -/
theorem exists_settles_or_haltsAt (prompter : Prompter α) (ask : κ → ν → ν → Duplication α)
    (earlier : List (Prompt α)) (ds : List (Declaration κ ν)) :
    ∃ rs, Settles prompter ask earlier ds rs ∨ ∃ d, HaltsAt prompter ask earlier ds rs d := by
  induction ds using List.reverseRecOn with
  | nil => exact ⟨[], .inl ⟨.nil, rfl, by simp⟩⟩
  | append_singleton ds d ih =>
    obtain ⟨rs, settled | ⟨d', halted⟩⟩ := ih
    · obtain ⟨r, rfl, next⟩ := settled.ruled.exists_next settled.going d
      have hdone : (rs ++ [r]).map Ruling.declaration = ds ++ [r.declaration] := by
        rw [List.map_append, settled.complete]
        rfl
      by_cases halts : r.Halts
      · exact ⟨_, .inr ⟨_, next, hdone ▸ List.prefix_rfl, r, by simp, rfl, halts⟩⟩
      · refine ⟨_, .inl ⟨next, hdone, fun r' hr' => ?_⟩⟩
        rcases List.mem_append.1 hr' with hr' | hr'
        · exact settled.going r' hr'
        · rwa [List.mem_singleton.1 hr']
    · exact ⟨rs, .inr ⟨d', halted.ruled, halted.upTo.trans (List.prefix_append _ _), halted.last⟩⟩

end RhythmChart
