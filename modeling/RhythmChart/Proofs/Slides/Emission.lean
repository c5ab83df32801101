import RhythmChart.Proofs.Slides.Pairing

/-!
# The order in which notes come

Notes come line by line: a tap line gives a tap for each slot, a slide line gives a slide at each end
that has a start.  `assemble_notes` says that the notes of all lines are these, with the starts that
`Paired` gives to the ends.  `count_starts` and `count_ends` count the slides of a channel from both sides:
by its starts and by its ends.
-/

open scoped List

namespace RhythmChart

variable {α : Type}

/-! ## Partners -/

/-- The function tells which start each end of a channel takes. -/
def IsPartner (lines : List (LaneLine α)) (partner : Nat → SlideEdge α → Option (SlideEdge α)) :
    Prop :=
  ∀ c x y, partner c y = some x ↔ Paired (edgesOn c lines) x y

theorem exists_isPartner (lines : List (LaneLine α)) : ∃ partner, IsPartner lines partner := by
  classical
  refine ⟨fun c y => if h : ∃ x, Paired (edgesOn c lines) x y then some h.choose else none,
    fun c x y => ?_⟩
  by_cases h : ∃ x, Paired (edgesOn c lines) x y
  · simp only [dif_pos h, Option.some.injEq]
    constructor
    · rintro rfl
      exact h.choose_spec
    · exact h.choose_spec.start_unique placed_edgesOn
  · simp only [dif_neg h, reduceCtorEq, false_iff]
    exact fun hx => h ⟨x, hx⟩

theorem IsPartner.none_of_isStart {lines : List (LaneLine α)}
    {partner : Nat → SlideEdge α → Option (SlideEdge α)} (h : IsPartner lines partner) (c : Nat)
    {y : SlideEdge α} (hy : y.IsStart) : partner c y = none := by
  cases hpartner : partner c y with
  | none => rfl
  | some x => exact absurd ((h c x y).1 hpartner).isEnd hy.not_isEnd

/-! ## Notes line by line -/

/-- The slide that ends at an edge, if the edge takes a start. -/
def slideTo (partner : SlideEdge α → Option (SlideEdge α)) (channel : Nat) (y : SlideEdge α) :
    Option (Note (Mark α)) :=
  (partner y).map fun x => SlideEdge.slide channel x y

/-- The notes of a line with a number. -/
def LaneLine.emitted (partner : Nat → SlideEdge α → Option (SlideEdge α)) (number : Nat) :
    LaneLine α → List (Note (Mark α))
  | .taps lane slots => slots.map fun s => .tap ⟨lane, s.low.val, s.beat⟩
  | .slides lane c slots span =>
    ((LaneLine.slides lane c slots span).edges c number).filterMap (slideTo (partner c) c)

/-- The notes of lines that are numbered from some number on. -/
def emittedFrom (partner : Nat → SlideEdge α → Option (SlideEdge α)) (number : Nat)
    (lines : List (LaneLine α)) : List (Note (Mark α)) :=
  (lines.zipIdx number).flatMap fun (l, i) => l.emitted partner i

/-- The notes of a chart, in the order in which they come. -/
def emitted (partner : Nat → SlideEdge α → Option (SlideEdge α)) (lines : List (LaneLine α)) :
    List (Note (Mark α)) :=
  emittedFrom partner 0 lines

theorem emittedFrom_cons (partner : Nat → SlideEdge α → Option (SlideEdge α)) (number : Nat)
    (l : LaneLine α) (lines : List (LaneLine α)) :
    emittedFrom partner number (l :: lines) =
      l.emitted partner number ++ emittedFrom partner (number + 1) lines := rfl

/-! ## Notes follow the machine -/

/-- What becomes of an end is what the function tells. -/
def Outcome.Agrees (partner : SlideEdge α → Option (SlideEdge α)) (o : Outcome α) : Prop :=
  ∀ y, o.stop? = some y → partner y = o.start?

theorem Outcome.Correct.agrees {lines : List (LaneLine α)}
    {partner : Nat → SlideEdge α → Option (SlideEdge α)} (hpartner : IsPartner lines partner)
    {c : Nat} {o : Outcome α} (h : o.Correct (edgesOn c lines)) : o.Agrees (partner c) := by
  intro y hy
  cases o with
  | paired x y' =>
    cases hy
    exact (hpartner c x y).2 h
  | unclosed x => cases hy
  | unmatched y' =>
    cases hy
    exact Option.eq_none_iff_forall_ne_some.2 fun x hx => h x ((hpartner c x y).1 hx)

section Machine

variable {partner : SlideEdge α → Option (SlideEdge α)} (channel : Nat)
  (hstart : ∀ y : SlideEdge α, y.IsStart → partner y = none)

include hstart in
theorem notes_step (w : Waiting α) (y : SlideEdge α)
    (h : ∀ o ∈ (w.step y).1, o.Agrees partner) :
    (w.step y).1.filterMap (Outcome.note? channel) = (slideTo partner channel y).toList := by
  by_cases hy : y.IsStart
  · have hnone : slideTo partner channel y = none := by
      rw [slideTo, hstart y hy]
      rfl
    obtain ⟨onLine, onChannel⟩ := w
    simp only [Waiting.step, hy, ↓reduceIte, hnone, List.filterMap_map]
    exact List.filterMap_eq_nil_iff.2 fun x _ => rfl
  · rcases w with ⟨_ | x, _ | z⟩ <;>
      · simp only [Waiting.step, hy, ↓reduceIte] at h ⊢
        rw [slideTo, h _ List.mem_cons_self y rfl]
        rfl

include hstart in
theorem notes_run (w : Waiting α) (ys : List (SlideEdge α))
    (h : ∀ o ∈ (w.run ys).1, o.Agrees partner) :
    (w.run ys).1.filterMap (Outcome.note? channel) = ys.filterMap (slideTo partner channel) := by
  induction ys generalizing w with
  | nil => rfl
  | cons y ys ih =>
    simp only [Waiting.run, List.forall_mem_append] at h
    rw [Waiting.run, List.filterMap_append, notes_step channel hstart w y h.1, ih _ h.2,
      List.filterMap_cons]
    cases slideTo partner channel y <;> rfl

theorem notes_endLine (w : Waiting α) : w.endLine.1.filterMap (Outcome.note? channel) = [] := by
  obtain ⟨_ | x, onChannel⟩ := w
  · rfl
  · rw [Waiting.endLine, List.filterMap_map]
    exact List.filterMap_eq_nil_iff.2 fun x _ => rfl

end Machine

/-- The notes of some lines, if their outcomes are those that the function tells. -/
theorem notes_assembleFrom {partner : Nat → SlideEdge α → Option (SlideEdge α)}
    (hstart : ∀ c y, SlideEdge.IsStart y → partner c y = none) (lines : List (LaneLine α))
    (number : Nat) (opened : OpenSlides α) (waiting : Nat → Option (SlideEdge α))
    (h : ∀ c : Nat, opened[c]? = (waiting c).map SlideEdge.opened)
    (hagrees : ∀ c, ∀ o ∈ traceFrom c number (waiting c) lines, o.Agrees (partner c)) :
    (assembleFrom opened lines).notes = emittedFrom partner number lines := by
  induction lines generalizing number opened waiting with
  | nil => rfl
  | cons l lines ih =>
    cases l with
    | taps lane slots =>
      rw [assembleFrom, Assembly.notes_append, ih (number + 1) opened waiting h hagrees]
      rfl
    | slides lane c slots span =>
      set r := Waiting.run ⟨none, waiting c⟩
        (SlideEdge.ofSlots number lane span 0 (slots.filter Slot.isEdge)) with hr
      have hedges : (LaneLine.slides lane c slots span).edges c number =
          SlideEdge.ofSlots number lane span 0 (slots.filter Slot.isEdge) := if_pos rfl
      -- The line is a part of the trace of its own channel, and of no other one.
      have hown := hagrees c
      rw [traceFrom, hedges, ← hr] at hown
      simp only [List.forall_mem_append] at hown
      have hrest (c' : Nat) : ∀ o ∈ traceFrom c' (number + 1)
          (Function.update waiting c r.2.endLine.2 c') lines, o.Agrees (partner c') := by
        by_cases hc : c = c'
        · subst hc
          rw [Function.update_self]
          exact hown.2
        · have hother := hagrees c'
          rw [traceFrom_slides_of_ne hc] at hother
          rwa [Function.update_of_ne (Ne.symm hc)]
      rw [assembleFrom, slideLine_eq_run number lane c span (h c) slots, ← hr]
      simp only [Assembly.notes_append, ih (number + 1) _ _ (getElem?_set_update h c _) hrest]
      rw [emittedFrom_cons, LaneLine.emitted, hedges, ← notes_run c (hstart c) _ _ hown.1.1, ← hr]
      change (r.1 ++ r.2.endLine.1).filterMap (Outcome.note? c) ++ _ = _
      rw [List.filterMap_append, notes_endLine, List.append_nil]

/-- The notes of a chart come line by line, each slide at its end. -/
theorem assemble_notes {lines : List (LaneLine α)}
    {partner : Nat → SlideEdge α → Option (SlideEdge α)} (h : IsPartner lines partner) :
    (assemble lines).notes = emitted partner lines :=
  notes_assembleFrom (fun c _ => h.none_of_isStart c) lines 0 ∅ (fun _ => none) (by simp)
    fun _ o ho => (outcomes_correct lines o ho).agrees h

/-- Where a note comes from: a slot of a tap line, or a pair of edges. -/
theorem mem_assemble_notes {lines : List (LaneLine α)} {n : Note (Mark α)}
    (h : n ∈ (assemble lines).notes) :
    (∃ lane slots, .taps lane slots ∈ lines ∧ ∃ s ∈ slots, n = .tap ⟨lane, s.low.val, s.beat⟩) ∨
      ∃ c x y, Paired (edgesOn c lines) x y ∧ n = SlideEdge.slide c x y := by
  obtain ⟨partner, hpartner⟩ := exists_isPartner lines
  rw [assemble_notes hpartner, emitted, emittedFrom, List.mem_flatMap] at h
  obtain ⟨⟨l, i⟩, hl, hn⟩ := h
  have hl := List.mem_of_getElem? (List.mem_zipIdx_iff_getElem?.1 hl)
  cases l with
  | taps lane slots =>
    obtain ⟨s, hs, rfl⟩ := List.mem_map.1 hn
    exact .inl ⟨lane, slots, hl, s, hs, rfl⟩
  | slides lane c slots span =>
    obtain ⟨y, -, hy⟩ := List.mem_filterMap.1 hn
    obtain ⟨x, hx, rfl⟩ := Option.map_eq_some_iff.1 hy
    exact .inr ⟨c, x, y, (hpartner c x y).1 hx, rfl⟩

/-! ## Edges are counted by notes and warnings -/

section Count

variable (channel : Nat) (lines : List (LaneLine α))

/-- Each start is the start of a slide, or is reported. -/
theorem count_starts : (edgesOn channel lines).countP (fun x => x.IsStart) =
    (assemble lines).notes.countP (Note.isOn channel) +
      (assemble lines).warnings.countP (fun w => w.content.isUnclosedOn channel) := by
  have hstarts := (Outcome.starts_perm (traceFrom channel 0 none lines)).length_eq
  rw [(starts_traceFrom channel 0 none lines).length_eq, List.length_append, List.length_map]
    at hstarts
  simp only [List.countP_eq_length_filter, filter_slides, filter_unclosed, List.length_map]
  exact hstarts.symm

/-- Each end is the end of a slide, or is reported. -/
theorem count_ends : (edgesOn channel lines).countP (fun x => x.IsEnd) =
    (assemble lines).notes.countP (Note.isOn channel) +
      (assemble lines).warnings.countP (fun w => w.content.isUnmatchedOn channel) := by
  have hends := (Outcome.stops_perm (traceFrom channel 0 none lines)).length_eq
  rw [stops_traceFrom, List.length_append, List.length_map, ← List.countP_eq_length_filter] at hends
  have hedges : (edgesOn channel lines).countP (fun x => x.IsEnd) =
      (edgesOn channel lines).countP (fun x => ¬ x.IsStart) := by
    refine List.countP_congr fun x hx => ?_
    simp only [decide_eq_true_eq]
    exact ⟨fun h h' => h'.not_isEnd h, (isStart_or_isEnd hx).resolve_left⟩
  rw [hedges]
  simp only [List.countP_eq_length_filter, filter_slides, filter_unmatched, List.length_map] at hends ⊢
  exact hends.symm

end Count

end RhythmChart
