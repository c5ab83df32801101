import RhythmChart.Settling

/-!
# What settling keeps

`Yields x log b log'` says that the computation `x`, started with `log`, goes through with the result
`b` and leaves `log'`.  `settle` settles one declaration after the other.  A declaration leaves the values
kept as they are, or puts its own in (`Yields.declare_cases`); so settled declarations keep one of its
declared values for each key, and nothing else (`Yields.grounded_settle`).
-/

namespace RhythmChart

variable {α : Type} [Scalar α]

/-! ## Computations that go through -/

/-- The computation goes through with a result, and leaves a log. -/
def Yields {β : Type} (x : Settling α β) (log : Log α) (b : β) (log' : Log α) : Prop :=
  x.run.run log = (.ok b, log')

namespace Yields

variable {β γ : Type} {log log' log'' : Log α}

theorem run_bind (x : Settling α β) (f : β → Settling α γ) (log : Log α) :
    (x >>= f).run.run log =
      match x.run.run log with
      | (.ok b, log') => (f b).run.run log'
      | (.error e, log') => (.error e, log') := by
  rw [ExceptT.run_bind, StateT.run_bind]
  rcases x.run.run log with ⟨_ | _, _⟩ <;> rfl

theorem pure_iff {b c : β} : Yields (pure b) log c log' ↔ b = c ∧ log = log' := by
  change ((Except.ok b, log) : Except (Spanned ParseError) β × Log α) = (.ok c, log') ↔ _
  rw [Prod.mk.injEq, Except.ok.injEq]

/-- What goes through goes through part by part. -/
theorem bind_iff {x : Settling α β} {f : β → Settling α γ} {c : γ} :
    Yields (x >>= f) log c log'' ↔ ∃ b log', Yields x log b log' ∧ Yields (f b) log' c log'' := by
  unfold Yields
  rw [run_bind]
  rcases x.run.run log with ⟨_ | b, log'⟩
  · constructor
    · intro h
      cases h
    · rintro ⟨_, _, hx, -⟩
      cases hx
  · constructor
    · intro h
      exact ⟨b, log', rfl, h⟩
    · rintro ⟨_, _, hx, h⟩
      cases hx
      exact h

theorem not_stop {e : ParseError} {span : Span} {b : β} : ¬ Yields (stop e span) log b log' := by
  intro h
  cases h

/-- A computation goes through in one way. -/
theorem unique {x : Settling α β} {b c : β} (h : Yields x log b log') (h' : Yields x log c log'') :
    b = c := by
  have := h.symm.trans h'
  cases this
  rfl

end Yields

/-! ## Declarations -/

variable {κ ν : Type} [Ord κ]

/-- Settles declarations in order, from no value on. -/
def settle (prompter : Prompter α) (ask : κ → ν → ν → Duplication α)
    (ds : List (Declaration κ ν)) : Settling α (Kept κ ν) :=
  ds.foldlM (declare prompter ask) ∅

/-- The values kept are declared ones, and each key that was declared has one. -/
structure Grounded (ds : List (Declaration κ ν)) (kept : Kept κ ν) : Prop where
  declared : ∀ k v, kept[k]? = some v → ⟨k, v.content, v.span⟩ ∈ ds
  mem_iff : ∀ k, k ∈ kept ↔ ∃ d ∈ ds, d.key = k

namespace Grounded

variable {ds : List (Declaration κ ν)} {kept : Kept κ ν}

theorem stay (h : Grounded ds kept) {d : Declaration κ ν} (hmem : d.key ∈ kept) :
    Grounded (ds ++ [d]) kept := by
  refine ⟨fun k v hk => List.mem_append_left _ (h.declared k v hk), fun k => ?_⟩
  rw [h.mem_iff]
  constructor
  · rintro ⟨d', hd', hk⟩
    exact ⟨d', List.mem_append_left _ hd', hk⟩
  · rintro ⟨d', hd', rfl⟩
    rcases List.mem_append.1 hd' with hd' | hd'
    · exact ⟨d', hd', rfl⟩
    · rw [List.mem_singleton.1 hd']
      exact (h.mem_iff _).1 hmem

variable [Std.TransOrd κ]

theorem empty : Grounded ([] : List (Declaration κ ν)) ∅ := by
  refine ⟨fun k v h => ?_, fun k => ?_⟩
  · simp at h
  · simp

theorem insert [Std.LawfulEqOrd κ] (h : Grounded ds kept) (d : Declaration κ ν) :
    Grounded (ds ++ [d]) (kept.insert d.key ⟨d.value, d.span⟩) := by
  refine ⟨fun k v hk => ?_, fun k => ?_⟩
  · rw [Std.TreeMap.getElem?_insert] at hk
    split at hk
    · next heq =>
      cases Std.LawfulEqOrd.eq_of_compare heq
      cases hk
      exact List.mem_append_right _ (List.mem_singleton_self _)
    · exact List.mem_append_left _ (h.declared k v hk)
  · rw [Std.TreeMap.mem_insert, Std.LawfulEqOrd.compare_eq_iff_eq, h.mem_iff]
    simp only [List.mem_append, List.mem_singleton]
    constructor
    · rintro (rfl | ⟨d', hd', rfl⟩)
      · exact ⟨d, .inr rfl, rfl⟩
      · exact ⟨d', .inl hd', rfl⟩
    · rintro ⟨d', hd' | rfl, rfl⟩
      · exact .inr ⟨d', hd', rfl⟩
      · exact .inl rfl

end Grounded

namespace Yields

variable [Std.TransOrd κ] {prompter : Prompter α} {ask : κ → ν → ν → Duplication α} {log log' : Log α}

/-- A declaration keeps the values as they are, or puts its own in. -/
theorem declare_cases {kept kept' : Kept κ ν} {d : Declaration κ ν}
    (h : Yields (declare prompter ask kept d) log kept' log') :
    (kept' = kept ∧ d.key ∈ kept) ∨ kept' = kept.insert d.key ⟨d.value, d.span⟩ := by
  unfold declare at h
  split at h
  · obtain ⟨rfl, -⟩ := pure_iff.1 h
    exact .inr rfl
  · next older holder =>
    obtain ⟨version, _, -, h⟩ := bind_iff.1 h
    cases version with
    | older =>
      obtain ⟨rfl, -⟩ := pure_iff.1 h
      exact .inl ⟨rfl, Std.TreeMap.mem_iff_isSome_getElem?.2 (holder ▸ rfl)⟩
    | newer =>
      obtain ⟨rfl, -⟩ := pure_iff.1 h
      exact .inr rfl

theorem grounded_foldlM [Std.LawfulEqOrd κ] {ds done : List (Declaration κ ν)} {kept kept' : Kept κ ν}
    (h : Yields (ds.foldlM (declare prompter ask) kept) log kept' log')
    (hkept : Grounded done kept) : Grounded (done ++ ds) kept' := by
  induction ds generalizing done kept log with
  | nil =>
    obtain ⟨rfl, -⟩ := pure_iff.1 h
    rwa [List.append_nil]
  | cons d ds ih =>
    rw [List.foldlM_cons] at h
    obtain ⟨next, _, hstep, hrest⟩ := bind_iff.1 h
    rw [List.append_cons]
    rcases declare_cases hstep with ⟨rfl, hmem⟩ | rfl
    · exact ih hrest (hkept.stay hmem)
    · exact ih hrest (hkept.insert d)

/-- Settled declarations keep a declared value for each key that was declared. -/
theorem grounded_settle [Std.LawfulEqOrd κ] {ds : List (Declaration κ ν)} {kept : Kept κ ν}
    (h : Yields (settle prompter ask ds) log kept log') : Grounded ds kept :=
  grounded_foldlM (h : Yields (ds.foldlM _ ∅) log kept log') .empty

end Yields

end RhythmChart
