import Mathlib.Data.List.Nodup
import RhythmChart.Proofs.Slides.Trace

/-!
# Which start a slide end takes

`Paired E x y` says, without the machine, that the end `y` takes the start `x` among the edges `E` of a
channel: `x` stands right before `y` on their line, or `x` is left over on its line and `y` is the first
end of a later line that no start of its own line precedes, and no line in between has a start left over
or such an end.

`assemble_pairs_slides` says that the notes and the warnings of a channel are exactly those of this
relation, in the order of the ends.  What carries it is `Waiting.Inv`: at each place the machine
remembers exactly the starts that the relation lets wait there.
-/

open scoped List

namespace RhythmChart

variable {α : Type}

/-! ## The relation -/

/-- The edge `y` comes right after `x` on the same line. -/
def Follows (x y : SlideEdge α) : Prop := y.line = x.line ∧ y.index = x.index + 1

/-- An end that no start of its own line stands right before. -/
structure FreeEnd (E : List (SlideEdge α)) (y : SlideEdge α) : Prop where
  mem : y ∈ E
  isEnd : y.IsEnd
  free : ∀ x ∈ E, x.IsStart → ¬ Follows x y

/-- A start that is the last edge of its line. -/
structure Dangling (E : List (SlideEdge α)) (x : SlideEdge α) : Prop where
  mem : x ∈ E
  isStart : x.IsStart
  last : ∀ y ∈ E, y.line = x.line → y.index ≤ x.index

/-- The end `y` takes the start `x`. -/
inductive Paired (E : List (SlideEdge α)) (x y : SlideEdge α) : Prop where
  /-- The start stands right before the end. -/
  | within (start_mem : x ∈ E) (stop_mem : y ∈ E) (start : x.IsStart) (stop : y.IsEnd)
      (next : Follows x y)
  /-- The start is left over on its line, and the end is the first one to come for it. -/
  | across (start : Dangling E x) (stop : FreeEnd E y) (later : x.line < y.line)
      (first : ∀ z, FreeEnd E z → z.line = y.line → y.index ≤ z.index)
      (between : ∀ z, x.line < z.line → z.line < y.line → ¬ Dangling E z ∧ ¬ FreeEnd E z)

/-- The pairs of a channel, in the order of their ends, and the edges without a partner.  Each edge is
in one place only. -/
structure IsPairing (E : List (SlideEdge α)) (pairs : List (SlideEdge α × SlideEdge α))
    (unclosed unmatched : List (SlideEdge α)) : Prop where
  mem_pairs : ∀ x y, (x, y) ∈ pairs ↔ Paired E x y
  mem_unclosed : ∀ x, x ∈ unclosed ↔ x ∈ E ∧ x.IsStart ∧ ∀ y, ¬ Paired E x y
  mem_unmatched : ∀ y, y ∈ unmatched ↔ y ∈ E ∧ y.IsEnd ∧ ∀ x, ¬ Paired E x y
  ordered : (pairs.map Prod.snd).Pairwise SlideEdge.Before
  starts_once : (pairs.map Prod.fst ++ unclosed).Nodup
  ends_once : (pairs.map Prod.snd ++ unmatched).Nodup

/-! ## Places of edges -/

theorem getElem?_ofSlots (line lane index : Nat) (span : Span) (slots : List (Slot α)) (i : Nat) :
    (SlideEdge.ofSlots line lane span index slots)[i]? =
      slots[i]?.map fun s => ⟨line, index + i, lane, span, s⟩ := by
  simp [SlideEdge.ofSlots, List.getElem?_map, List.getElem?_zipIdx, Option.map_map,
    Function.comp_def]

/-- The edges of a line are slots of one line, numbered from zero. -/
theorem exists_edges_eq (l : LaneLine α) (channel number : Nat) :
    ∃ lane span slots, l.edges channel number = SlideEdge.ofSlots number lane span 0 slots ∧
      ∀ s ∈ slots, s.isEdge = true := by
  cases l with
  | taps lane _ => exact ⟨lane, ⟨0, 0⟩, [], rfl, by simp⟩
  | slides lane c slots span =>
    by_cases h : c = channel
    · exact ⟨lane, span, slots.filter Slot.isEdge, by simp [LaneLine.edges, h],
        fun s hs => (List.mem_filter.1 hs).2⟩
    · exact ⟨lane, span, [], by simp [LaneLine.edges, h], by simp⟩

theorem line_of_mem_edges {l : LaneLine α} {channel number : Nat} {x : SlideEdge α}
    (h : x ∈ l.edges channel number) : x.line = number := by
  obtain ⟨lane, span, slots, he, -⟩ := exists_edges_eq l channel number
  obtain ⟨i, hi⟩ := List.mem_iff_getElem?.1 (he ▸ h)
  rw [getElem?_ofSlots, Option.map_eq_some_iff] at hi
  obtain ⟨s, -, rfl⟩ := hi
  rfl

theorem getElem?_index_of_mem_edges {l : LaneLine α} {channel number : Nat} {x : SlideEdge α}
    (h : x ∈ l.edges channel number) : (l.edges channel number)[x.index]? = some x := by
  obtain ⟨lane, span, slots, he, -⟩ := exists_edges_eq l channel number
  rw [he] at h ⊢
  obtain ⟨i, hi⟩ := List.mem_iff_getElem?.1 h
  have hx := hi
  rw [getElem?_ofSlots, Option.map_eq_some_iff] at hx
  obtain ⟨s, -, rfl⟩ := hx
  simpa using hi

theorem isStart_or_isEnd_of_mem_edges {l : LaneLine α} {channel number : Nat} {x : SlideEdge α}
    (h : x ∈ l.edges channel number) : x.IsStart ∨ x.IsEnd := by
  obtain ⟨lane, span, slots, he, hslots⟩ := exists_edges_eq l channel number
  obtain ⟨i, hi⟩ := List.mem_iff_getElem?.1 (he ▸ h)
  rw [getElem?_ofSlots, Option.map_eq_some_iff] at hi
  obtain ⟨s, hs, rfl⟩ := hi
  have hedge : s.high.val = 1 ∨ s.high.val = 2 := by
    simpa [Slot.isEdge] using hslots s (List.mem_of_getElem? hs)
  exact hedge

theorem mem_edgesOn {channel : Nat} {lines : List (LaneLine α)} {x : SlideEdge α} :
    x ∈ edgesOn channel lines ↔ ∃ l, lines[x.line]? = some l ∧ x ∈ l.edges channel x.line := by
  simp only [edgesOn, edgesFrom, List.mem_flatMap, Prod.exists, List.mem_zipIdx_iff_getElem?]
  constructor
  · rintro ⟨l, i, hl, hx⟩
    obtain rfl := line_of_mem_edges hx
    exact ⟨l, hl, hx⟩
  · rintro ⟨l, hl, hx⟩
    exact ⟨l, x.line, hl, hx⟩

/-- An edge is a slot of a slide line on its channel. -/
theorem exists_slides_of_mem_edgesOn {channel : Nat} {lines : List (LaneLine α)} {x : SlideEdge α}
    (h : x ∈ edgesOn channel lines) :
    ∃ slots, .slides x.lane channel slots x.span ∈ lines ∧ x.slot ∈ slots := by
  obtain ⟨l, hl, hx⟩ := mem_edgesOn.1 h
  cases l with
  | taps lane slots => cases hx
  | slides lane c slots span =>
    rw [LaneLine.edges] at hx
    split at hx
    · next hc =>
      obtain ⟨⟨s, i⟩, hs, hx⟩ := List.mem_map.1 hx
      have hslot := List.mem_of_getElem? (List.mem_zipIdx_iff_getElem?.1 hs)
      rw [← hx, ← hc]
      rw [← hx] at hl
      exact ⟨slots, List.mem_of_getElem? hl, List.mem_of_mem_filter hslot⟩
    · cases hx

theorem eq_of_place_eq {channel : Nat} {lines : List (LaneLine α)} {x y : SlideEdge α}
    (hx : x ∈ edgesOn channel lines) (hy : y ∈ edgesOn channel lines) (hline : x.line = y.line)
    (hindex : x.index = y.index) : x = y := by
  obtain ⟨l, hl, hx⟩ := mem_edgesOn.1 hx
  obtain ⟨l', hl', hy⟩ := mem_edgesOn.1 hy
  rw [hline] at hl hx
  obtain rfl : l = l' := Option.some.inj (hl.symm.trans hl')
  have := getElem?_index_of_mem_edges hx
  rw [hindex, getElem?_index_of_mem_edges hy] at this
  exact (Option.some.inj this).symm

theorem isStart_or_isEnd {channel : Nat} {lines : List (LaneLine α)} {x : SlideEdge α}
    (hx : x ∈ edgesOn channel lines) : x.IsStart ∨ x.IsEnd := by
  obtain ⟨l, -, hx⟩ := mem_edgesOn.1 hx
  exact isStart_or_isEnd_of_mem_edges hx

/-! ## What the machine remembers -/

section Machine

variable {E : List (SlideEdge α)}

/-- The outcome is what the relation says. -/
def Outcome.Correct (E : List (SlideEdge α)) : Outcome α → Prop
  | .paired x y => Paired E x y
  | .unclosed x => ∀ y, ¬ Paired E x y
  | .unmatched y => ∀ x, ¬ Paired E x y

/-- The start `x` waits on the channel before the edge `p` of the line `i`. -/
structure Waits (E : List (SlideEdge α)) (i p : Nat) (x : SlideEdge α) : Prop where
  dangling : Dangling E x
  earlier : x.line < i
  quiet : ∀ z, x.line < z.line → z.line < i → ¬ Dangling E z ∧ ¬ FreeEnd E z
  unmet : ∀ z, FreeEnd E z → z.line = i → p ≤ z.index

/-- Before the edge `p` of the line `i`, a start waits on the line if it is the edge right before, and
on the channel if the relation lets it wait. -/
structure Waiting.Inv (E : List (SlideEdge α)) (i p : Nat) (w : Waiting α) : Prop where
  onLine : ∀ x, w.onLine = some x ↔ x ∈ E ∧ x.IsStart ∧ x.line = i ∧ x.index + 1 = p
  onChannel : ∀ x, w.onChannel = some x ↔ Waits E i p x

def Placed (E : List (SlideEdge α)) : Prop :=
  ∀ x ∈ E, ∀ y ∈ E, x.line = y.line → x.index = y.index → x = y

theorem Dangling.not_follows {x y : SlideEdge α} (hx : Dangling E x) (hy : y ∈ E) :
    ¬ Follows x y := by
  rintro ⟨hline, hindex⟩
  have := hx.last y hy hline
  omega

/-- A start right before another start has no end. -/
theorem not_paired_of_start_follows (hE : Placed E) {x y : SlideEdge α} (hy : y ∈ E)
    (hstart : y.IsStart) (hxy : Follows x y) : ∀ z, ¬ Paired E x z := by
  rintro z (⟨-, hz, -, hstop, hnext⟩ | ⟨hx, -, -, -, -⟩)
  · obtain rfl : z = y :=
      hE z hz y hy (hnext.1.trans hxy.1.symm) (hnext.2.trans hxy.2.symm)
    exact hstart.not_isEnd hstop
  · exact hx.not_follows hy hxy

/-- A free end takes no start but the one that waits on the channel. -/
theorem Paired.waits {x y : SlideEdge α} (h : Paired E x y) (hy : FreeEnd E y) :
    Waits E y.line y.index x := by
  rcases h with ⟨hx, -, hstart, -, hnext⟩ | ⟨hx, -, hlater, hfirst, hbetween⟩
  · exact absurd hnext (hy.free x hx hstart)
  · exact ⟨hx, hlater, hbetween, hfirst⟩

/-- Past an edge that is no free end, the same starts wait on the channel. -/
theorem waits_succ_iff (hE : Placed E) {x y : SlideEdge α} (hy : y ∈ E) (hfree : ¬ FreeEnd E y) :
    Waits E y.line (y.index + 1) x ↔ Waits E y.line y.index x := by
  constructor
  · intro h
    exact ⟨h.dangling, h.earlier, h.quiet, fun z hz hline => by have := h.unmet z hz hline; omega⟩
  · intro h
    refine ⟨h.dangling, h.earlier, h.quiet, fun z hz hline => ?_⟩
    have hne : z.index ≠ y.index := by
      intro hindex
      exact hfree (hE z hz.mem y hy hline hindex ▸ hz)
    have := h.unmet z hz hline
    omega

/-- Past a free end, no start waits on the channel. -/
theorem not_waits_succ {x y : SlideEdge α} (hy : FreeEnd E y) :
    ¬ Waits E y.line (y.index + 1) x := by
  intro h
  have := h.unmet y hy rfl
  omega

/-- Past an end, no start waits on the line. -/
theorem not_waits_onLine_of_isEnd (hE : Placed E) {x y : SlideEdge α} (hy : y ∈ E)
    (hstop : y.IsEnd) : ¬ (x ∈ E ∧ x.IsStart ∧ x.line = y.line ∧ x.index + 1 = y.index + 1) := by
  rintro ⟨hx, hstart, hline, hindex⟩
  obtain rfl := hE x hx y hy hline (by omega)
  exact hstart.not_isEnd hstop

/-- One edge keeps the memory right, and its outcomes are right. -/
theorem Waiting.Inv.step (hE : Placed E) {w : Waiting α} {y : SlideEdge α}
    (h : w.Inv E y.line y.index) (hy : y ∈ E) (hedge : y.IsStart ∨ y.IsEnd) :
    (∀ o ∈ (w.step y).1, o.Correct E) ∧ (w.step y).2.Inv E y.line (y.index + 1) := by
  by_cases hstart : y.IsStart
  · simp only [Waiting.step, hstart, ↓reduceIte]
    refine ⟨?_, fun x => ?_, fun x => ?_⟩
    · intro o ho
      obtain ⟨x, hx, rfl⟩ := List.mem_map.1 ho
      obtain ⟨-, -, hline, hindex⟩ := (h.onLine x).1 (Option.mem_toList.1 hx)
      exact not_paired_of_start_follows hE hy hstart ⟨hline.symm, hindex.symm⟩
    · constructor
      · intro hx
        obtain rfl := Option.some.inj hx
        exact ⟨hy, hstart, rfl, rfl⟩
      · rintro ⟨hx, -, hline, hindex⟩
        rw [hE x hx y hy hline (by omega)]
    · rw [waits_succ_iff hE hy fun hfree => hstart.not_isEnd hfree.isEnd]
      exact h.onChannel x
  · have hstop : y.IsEnd := hedge.resolve_left hstart
    have hline (x : SlideEdge α) : (none : Option (SlideEdge α)) = some x ↔
        x ∈ E ∧ x.IsStart ∧ x.line = y.line ∧ x.index + 1 = y.index + 1 :=
      iff_of_false (by simp) (not_waits_onLine_of_isEnd hE hy hstop)
    rcases w with ⟨_ | x, onChannel⟩
    · -- No start of the line stands right before this end.
      have hfree : FreeEnd E y := by
        refine ⟨hy, hstop, fun x hx hxstart hxy => ?_⟩
        exact absurd ((h.onLine x).2 ⟨hx, hxstart, hxy.1.symm, hxy.2.symm⟩) (by simp)
      have hchannel (x : SlideEdge α) :
          (none : Option (SlideEdge α)) = some x ↔ Waits E y.line (y.index + 1) x :=
        iff_of_false (by simp) (not_waits_succ hfree)
      rcases onChannel with _ | x
      · simp only [Waiting.step, hstart, ↓reduceIte, List.mem_singleton, forall_eq]
        refine ⟨fun x hx => ?_, hline, hchannel⟩
        exact absurd ((h.onChannel x).2 (hx.waits hfree)) (by simp)
      · simp only [Waiting.step, hstart, ↓reduceIte, List.mem_singleton, forall_eq]
        have hx := (h.onChannel x).1 rfl
        exact ⟨.across hx.dangling hfree hx.earlier hx.unmet hx.quiet, hline, hchannel⟩
    · simp only [Waiting.step, hstart, ↓reduceIte, List.mem_singleton, forall_eq]
      obtain ⟨hx, hxstart, hxline, hxindex⟩ := (h.onLine x).1 rfl
      have hxy : Follows x y := ⟨hxline.symm, hxindex.symm⟩
      refine ⟨.within hx hy hxstart hstop hxy, hline, fun z => ?_⟩
      rw [waits_succ_iff hE hy fun hfree => hfree.free x hx hxstart hxy]
      exact h.onChannel z

/-- The edges of a line keep the memory right, and their outcomes are right. -/
theorem Waiting.Inv.run (hE : Placed E) (line lane : Nat) (span : Span) (slots : List (Slot α))
    (index : Nat) {w : Waiting α} (h : w.Inv E line index)
    (hmem : ∀ y ∈ SlideEdge.ofSlots line lane span index slots, y ∈ E ∧ (y.IsStart ∨ y.IsEnd)) :
    (∀ o ∈ (w.run (SlideEdge.ofSlots line lane span index slots)).1, o.Correct E) ∧
      (w.run (SlideEdge.ofSlots line lane span index slots)).2.Inv E line
        (index + slots.length) := by
  induction slots generalizing index w with
  | nil => exact ⟨by simp [Waiting.run], h⟩
  | cons s slots ih =>
    simp only [SlideEdge.ofSlots_cons, List.mem_cons, forall_eq_or_imp] at hmem
    obtain ⟨⟨hy, hedge⟩, hrest⟩ := hmem
    obtain ⟨hstep, hinv⟩ := Waiting.Inv.step hE h hy hedge
    obtain ⟨hrun, hend⟩ := ih (index + 1) hinv hrest
    simp only [SlideEdge.ofSlots_cons, Waiting.run, List.mem_append]
    refine ⟨fun o ho => ho.elim (hstep o) (hrun o), ?_⟩
    rwa [List.length_cons, Nat.add_comm slots.length 1, ← Nat.add_assoc]

/-- The number `p` is that of the edges of the line `i`. -/
structure LineEnd (E : List (SlideEdge α)) (i p : Nat) : Prop where
  lt : ∀ z ∈ E, z.line = i → z.index < p
  last : 0 < p → ∃ z ∈ E, z.line = i ∧ z.index + 1 = p

theorem LineEnd.index_of_dangling {i p : Nat} (hp : LineEnd E i p) {x : SlideEdge α}
    (hx : Dangling E x) (hline : x.line = i) : x.index + 1 = p := by
  have hlt := hp.lt x hx.mem hline
  obtain ⟨z, hz, hzline, hzindex⟩ := hp.last (by omega)
  have := hx.last z hz (hzline.trans hline.symm)
  omega

/-- A start that waits on the channel until the end of a line with a start left over has no end. -/
theorem Waits.not_paired {i p : Nat} (hp : LineEnd E i p) {x z : SlideEdge α}
    (hx : Waits E i p x) (hz : Dangling E z) (hline : z.line = i) : ∀ y, ¬ Paired E x y := by
  rintro y (⟨-, hy, -, -, hnext⟩ | ⟨-, hy, hlater, -, hbetween⟩)
  · exact hx.dangling.not_follows hy hnext
  · rcases Nat.lt_trichotomy y.line i with hlt | heq | hgt
    · exact (hx.quiet y hlater hlt).2 hy
    · have h₁ := hx.unmet y hy heq
      have h₂ := hp.lt y hy.mem heq
      omega
    · exact (hbetween z (hline ▸ hx.earlier) (hline ▸ hgt)).1 hz

/-- The end of a line keeps the memory right, and its outcomes are right. -/
theorem Waiting.Inv.endLine {i p : Nat} (hp : LineEnd E i p) {w : Waiting α}
    (h : w.Inv E i p) :
    (∀ o ∈ w.endLine.1, o.Correct E) ∧ (⟨none, w.endLine.2⟩ : Waiting α).Inv E (i + 1) 0 := by
  have hline (x : SlideEdge α) : (none : Option (SlideEdge α)) = some x ↔
      x ∈ E ∧ x.IsStart ∧ x.line = i + 1 ∧ x.index + 1 = 0 := by simp
  have hleft {z : SlideEdge α} (hz : Dangling E z) (hzi : z.line = i) : w.onLine = some z :=
    (h.onLine z).2 ⟨hz.mem, hz.isStart, hzi, hp.index_of_dangling hz hzi⟩
  rcases w with ⟨_ | x, onChannel⟩
  · -- No start is left over, and no free end of the line has met the one on the channel.
    refine ⟨by simp [Waiting.endLine], hline, fun x => (h.onChannel x).trans ⟨fun hx => ?_, fun hx => ?_⟩⟩
    · refine ⟨hx.dangling, Nat.lt_succ_of_lt hx.earlier, fun z hxz hz => ?_, fun _ _ _ => Nat.zero_le _⟩
      rcases Nat.lt_succ_iff_lt_or_eq.1 hz with hlt | heq
      · exact hx.quiet z hxz hlt
      · refine ⟨fun hz => absurd (hleft hz heq) (by simp), fun hz => ?_⟩
        have h₁ := hx.unmet z hz heq
        have h₂ := hp.lt z hz.mem heq
        omega
    · have hearlier : x.line < i := by
        rcases Nat.lt_succ_iff_lt_or_eq.1 hx.earlier with hlt | heq
        · exact hlt
        · exact absurd (hleft hx.dangling heq) (by simp)
      exact ⟨hx.dangling, hearlier, fun z hxz hz => hx.quiet z hxz (Nat.lt_succ_of_lt hz),
        fun z hz hzi => absurd hz (hx.quiet z (hzi ▸ hearlier) (hzi ▸ Nat.lt_succ_self i)).2⟩
  · obtain ⟨hx, hxstart, hxline, hxindex⟩ := (h.onLine x).1 rfl
    have hdangling : Dangling E x := by
      refine ⟨hx, hxstart, fun z hz hzx => ?_⟩
      have := hp.lt z hz (hzx.trans hxline)
      omega
    refine ⟨fun o ho => ?_, hline, fun z => ⟨fun hz => ?_, fun hz => ?_⟩⟩
    · obtain ⟨z, hz, rfl⟩ := List.mem_map.1 ho
      exact Waits.not_paired hp ((h.onChannel z).1 (Option.mem_toList.1 hz)) hdangling hxline
    · obtain rfl := Option.some.inj hz
      exact ⟨hdangling, by omega, fun z _ _ => by omega, fun _ _ _ => Nat.zero_le _⟩
    · rcases Nat.lt_succ_iff_lt_or_eq.1 hz.earlier with hlt | heq
      · exact absurd hdangling (hz.quiet x (hxline ▸ hlt) (hxline ▸ Nat.lt_succ_self _)).1
      · exact hleft hz.dangling heq

/-- A start that waits on the channel after all lines has no end. -/
theorem Waits.not_paired_of_all {n p : Nat} {x : SlideEdge α} (hx : Waits E n p x)
    (hn : ∀ z ∈ E, z.line < n) : ∀ y, ¬ Paired E x y := by
  rintro y (⟨-, hy, -, -, hnext⟩ | ⟨-, hy, hlater, -, -⟩)
  · exact hx.dangling.not_follows hy hnext
  · exact (hx.quiet y hlater (hn y hy.mem)).2 hy

end Machine

/-! ## Whole charts -/

section Chart

variable {channel : Nat} {all : List (LaneLine α)}

theorem placed_edgesOn : Placed (edgesOn channel all) := fun _ hx _ hy => eq_of_place_eq hx hy

theorem mem_edgesOn_of_mem_edges {number : Nat} {l : LaneLine α} (hl : all[number]? = some l)
    {x : SlideEdge α} (hx : x ∈ l.edges channel number) : x ∈ edgesOn channel all := by
  have hline := line_of_mem_edges hx
  exact mem_edgesOn.2 ⟨l, hline ▸ hl, hline ▸ hx⟩

theorem mem_edges_of_line_eq {number : Nat} {l : LaneLine α} (hl : all[number]? = some l)
    {x : SlideEdge α} (hx : x ∈ edgesOn channel all) (hline : x.line = number) :
    x ∈ l.edges channel number := by
  obtain ⟨l', hl', hx⟩ := mem_edgesOn.1 hx
  rw [hline] at hl' hx
  obtain rfl : l' = l := Option.some.inj (hl'.symm.trans hl)
  exact hx

theorem lineEnd_edges {number : Nat} {l : LaneLine α} (hl : all[number]? = some l) :
    LineEnd (edgesOn channel all) number (l.edges channel number).length := by
  refine ⟨fun z hz hline => ?_, fun hpos => ?_⟩
  · have := getElem?_index_of_mem_edges (mem_edges_of_line_eq hl hz hline)
    exact (List.getElem?_eq_some_iff.1 this).1
  · obtain ⟨lane, span, slots, he, -⟩ := exists_edges_eq l channel number
    set last := (l.edges channel number).length - 1 with hlast
    have hlt : last < (l.edges channel number).length := by omega
    have hmem := List.getElem_mem hlt
    refine ⟨_, mem_edgesOn_of_mem_edges hl hmem, line_of_mem_edges hmem, ?_⟩
    have : (l.edges channel number)[last].index = last := by
      simp [he, SlideEdge.ofSlots]
    omega

/-- From lines before which the memory is right, all outcomes are right. -/
theorem traceFrom_correct (lines : List (LaneLine α)) (number : Nat)
    (waiting : Option (SlideEdge α)) (hlines : all.drop number = lines)
    (h : (⟨none, waiting⟩ : Waiting α).Inv (edgesOn channel all) number 0) :
    ∀ o ∈ traceFrom channel number waiting lines, o.Correct (edgesOn channel all) := by
  induction lines generalizing number waiting with
  | nil =>
    intro o ho
    obtain ⟨x, hx, rfl⟩ := List.mem_map.1 ho
    refine Waits.not_paired_of_all ((h.onChannel x).1 (Option.mem_toList.1 hx)) fun z hz => ?_
    obtain ⟨l, hl, -⟩ := mem_edgesOn.1 hz
    have hlt := (List.getElem?_eq_some_iff.1 hl).1
    have hlen := List.drop_eq_nil_iff.1 hlines
    omega
  | cons l lines ih =>
    have hl : all[number]? = some l := by
      have := congrArg List.head? hlines
      rwa [List.head?_drop, List.head?_cons] at this
    have hrest : all.drop (number + 1) = lines := by
      have := congrArg List.tail hlines
      rwa [List.tail_drop, List.tail_cons] at this
    obtain ⟨lane, span, slots, he, -⟩ := exists_edges_eq l channel number
    have hmem : ∀ y ∈ SlideEdge.ofSlots number lane span 0 slots,
        y ∈ edgesOn channel all ∧ (y.IsStart ∨ y.IsEnd) := by
      intro y hy
      have hy := mem_edgesOn_of_mem_edges hl (he ▸ hy)
      exact ⟨hy, isStart_or_isEnd hy⟩
    obtain ⟨hrun, hinv⟩ := Waiting.Inv.run placed_edgesOn number lane span slots 0 h hmem
    have hend : LineEnd (edgesOn channel all) number (0 + slots.length) := by
      have : LineEnd (edgesOn channel all) number _ := lineEnd_edges hl
      rwa [he, SlideEdge.ofSlots, List.length_map, List.length_zipIdx, ← Nat.zero_add slots.length]
        at this
    obtain ⟨hlast, hnext⟩ := Waiting.Inv.endLine hend hinv
    intro o ho
    simp only [traceFrom, he, List.mem_append] at ho
    rcases ho with (ho | ho) | ho
    · exact hrun o ho
    · exact hlast o ho
    · exact ih (number + 1) _ hrest hnext o ho

/-- All outcomes of a chart are right. -/
theorem outcomes_correct (lines : List (LaneLine α)) :
    ∀ o ∈ traceFrom channel 0 none lines, o.Correct (edgesOn channel lines) := by
  have hinv : (⟨none, none⟩ : Waiting α).Inv (edgesOn channel lines) 0 0 :=
    ⟨fun x => by simp, fun x => iff_of_false (by simp) fun h => Nat.not_lt_zero _ h.earlier⟩
  exact traceFrom_correct lines 0 none rfl hinv

theorem le_line_of_mem_edgesFrom {number : Nat} {lines : List (LaneLine α)} {x : SlideEdge α}
    (h : x ∈ edgesFrom channel number lines) : number ≤ x.line := by
  induction lines generalizing number with
  | nil => cases h
  | cons l lines ih =>
    rcases List.mem_append.1 (edgesFrom_cons .. ▸ h) with h | h
    · exact Nat.le_of_eq (line_of_mem_edges h).symm
    · exact Nat.le_of_succ_le (ih h)

theorem pairwise_before_edgesFrom (number : Nat) (lines : List (LaneLine α)) :
    (edgesFrom channel number lines).Pairwise SlideEdge.Before := by
  induction lines generalizing number with
  | nil => exact List.Pairwise.nil
  | cons l lines ih =>
    rw [edgesFrom_cons, List.pairwise_append]
    refine ⟨?_, ih (number + 1), fun x hx y hy => ?_⟩
    · obtain ⟨lane, span, slots, he, -⟩ := exists_edges_eq l channel number
      rw [he, List.pairwise_iff_getElem]
      intro i j hi hj hij
      exact Or.inr (by simpa [SlideEdge.ofSlots] using hij)
    · have := line_of_mem_edges hx
      have := le_line_of_mem_edgesFrom hy
      exact Or.inl (by omega)

end Chart

theorem SlideEdge.Before.ne {x y : SlideEdge α} (h : x.Before y) : x ≠ y := by
  rintro rfl
  rcases h with h | ⟨-, h⟩ <;> omega

theorem Paired.start_mem {E : List (SlideEdge α)} {x y : SlideEdge α} (h : Paired E x y) : x ∈ E := by
  rcases h with ⟨hx, -, -, -, -⟩ | ⟨hx, -, -, -, -⟩
  · exact hx
  · exact hx.mem

theorem Paired.stop_mem {E : List (SlideEdge α)} {x y : SlideEdge α} (h : Paired E x y) : y ∈ E := by
  rcases h with ⟨-, hy, -, -, -⟩ | ⟨-, hy, -, -, -⟩
  · exact hy
  · exact hy.mem

theorem Paired.isEnd {E : List (SlideEdge α)} {x y : SlideEdge α} (h : Paired E x y) : y.IsEnd := by
  rcases h with ⟨-, -, -, hstop, -⟩ | ⟨-, hy, -, -, -⟩
  · exact hstop
  · exact hy.isEnd

theorem Paired.start_unique {E : List (SlideEdge α)} (hE : Placed E) {x x' y : SlideEdge α}
    (h : Paired E x y) (h' : Paired E x' y) : x = x' := by
  rcases h with ⟨hx, hy, hstart, -, hnext⟩ | ⟨hx, hy, hlater, -, hbetween⟩
  · rcases h' with ⟨hx', -, -, -, hnext'⟩ | ⟨-, hy', -, -, -⟩
    · exact hE x hx x' hx' (hnext.1.symm.trans hnext'.1) (by have := hnext.2.symm.trans hnext'.2; omega)
    · exact absurd hnext (hy'.free x hx hstart)
  · rcases h' with ⟨hx', -, hstart', -, hnext'⟩ | ⟨hx', -, hlater', -, hbetween'⟩
    · exact absurd hnext' (hy.free x' hx' hstart')
    · rcases Nat.lt_trichotomy x.line x'.line with hlt | heq | hgt
      · exact absurd hx' (hbetween x' hlt hlater').1
      · have h₁ := hx.last x' hx'.mem heq.symm
        have h₂ := hx'.last x hx.mem heq
        exact hE x hx.mem x' hx'.mem heq (Nat.le_antisymm h₂ h₁)
      · exact absurd hx (hbetween' x hgt hlater).1

/-! ## Outcomes sorted by their kind -/

namespace Outcome

def pair? : Outcome α → Option (SlideEdge α × SlideEdge α)
  | .paired x y => some (x, y)
  | _ => none

def unclosed? : Outcome α → Option (SlideEdge α)
  | .unclosed x => some x
  | _ => none

def unmatched? : Outcome α → Option (SlideEdge α)
  | .unmatched y => some y
  | _ => none

theorem mem_filterMap_iff {β : Type} {f : Outcome α → Option β} {c : β → Outcome α}
    (h : ∀ o b, f o = some b ↔ o = c b) {os : List (Outcome α)} {b : β} :
    b ∈ os.filterMap f ↔ c b ∈ os := by
  rw [List.mem_filterMap]
  constructor
  · rintro ⟨o, ho, hb⟩
    exact (h o b).1 hb ▸ ho
  · exact fun hb => ⟨c b, hb, (h _ _).2 rfl⟩

theorem mem_pairs {os : List (Outcome α)} {x y : SlideEdge α} :
    (x, y) ∈ os.filterMap pair? ↔ .paired x y ∈ os := by
  refine mem_filterMap_iff (c := fun p : SlideEdge α × SlideEdge α => .paired p.1 p.2) fun o p => ?_
  cases o <;> simp [pair?, Prod.ext_iff]

theorem mem_unclosed {os : List (Outcome α)} {x : SlideEdge α} :
    x ∈ os.filterMap unclosed? ↔ .unclosed x ∈ os := by
  refine mem_filterMap_iff (c := .unclosed) fun o x => ?_
  cases o <;> simp [unclosed?]

theorem mem_unmatched {os : List (Outcome α)} {y : SlideEdge α} :
    y ∈ os.filterMap unmatched? ↔ .unmatched y ∈ os := by
  refine mem_filterMap_iff (c := .unmatched) fun o y => ?_
  cases o <;> simp [unmatched?]

theorem mem_starts {os : List (Outcome α)} {x : SlideEdge α} :
    x ∈ os.filterMap start? ↔ (∃ y, .paired x y ∈ os) ∨ .unclosed x ∈ os := by
  rw [List.mem_filterMap]
  constructor
  · rintro ⟨o, ho, h⟩
    cases o <;> simp only [start?, reduceCtorEq, Option.some.injEq] at h <;> subst h
    · exact Or.inl ⟨_, ho⟩
    · exact Or.inr ho
  · rintro (⟨y, h⟩ | h) <;> exact ⟨_, h, rfl⟩

theorem mem_stops {os : List (Outcome α)} {y : SlideEdge α} :
    y ∈ os.filterMap stop? ↔ (∃ x, .paired x y ∈ os) ∨ .unmatched y ∈ os := by
  rw [List.mem_filterMap]
  constructor
  · rintro ⟨o, ho, h⟩
    cases o <;> simp only [stop?, reduceCtorEq, Option.some.injEq] at h <;> subst h
    · exact Or.inl ⟨_, ho⟩
    · exact Or.inr ho
  · rintro (⟨x, h⟩ | h) <;> exact ⟨_, h, rfl⟩

theorem starts_perm (os : List (Outcome α)) :
    (os.filterMap pair?).map Prod.fst ++ os.filterMap unclosed? ~ os.filterMap start? := by
  induction os with
  | nil => exact List.Perm.nil
  | cons o os ih =>
    cases o with
    | paired x y => exact ih.cons x
    | unclosed x => exact List.perm_middle.trans (ih.cons x)
    | unmatched y => exact ih

theorem stops_perm (os : List (Outcome α)) :
    (os.filterMap pair?).map Prod.snd ++ os.filterMap unmatched? ~ os.filterMap stop? := by
  induction os with
  | nil => exact List.Perm.nil
  | cons o os ih =>
    cases o with
    | paired x y => exact ih.cons y
    | unclosed x => exact ih
    | unmatched y => exact List.perm_middle.trans (ih.cons y)

theorem stops_sublist (os : List (Outcome α)) :
    (os.filterMap pair?).map Prod.snd <+ os.filterMap stop? := by
  induction os with
  | nil => exact List.Sublist.slnil
  | cons o os ih =>
    cases o with
    | paired x y => exact ih.cons_cons y
    | unclosed x => exact ih
    | unmatched y => exact ih.cons y

theorem notes_made (channel : Nat) (os : List (Outcome α)) :
    (made channel os).notes =
      (os.filterMap pair?).map fun p => SlideEdge.slide channel p.1 p.2 := by
  induction os with
  | nil => rfl
  | cons o os ih =>
    cases o with
    | paired x y => exact congrArg (SlideEdge.slide channel x y :: ·) ih
    | unclosed x => exact ih
    | unmatched y => exact ih

theorem unclosed_made (channel : Nat) (os : List (Outcome α)) :
    ((made channel os).warnings.filter fun w => w.content.isUnclosedOn channel) =
      (os.filterMap unclosed?).map (SlideEdge.unclosed channel) := by
  induction os with
  | nil => rfl
  | cons o os ih =>
    cases o with
    | paired x y => exact ih
    | unclosed x =>
      have hx : (x.unclosed channel).content.isUnclosedOn channel = true := by
        simp [SlideEdge.unclosed, Warning.isUnclosedOn]
      change ((x.unclosed channel :: (made channel os).warnings).filter _) = _
      rw [List.filter_cons, if_pos hx, ih]
      rfl
    | unmatched y => exact ih

theorem unmatched_made (channel : Nat) (os : List (Outcome α)) :
    ((made channel os).warnings.filter fun w => w.content.isUnmatchedOn channel) =
      (os.filterMap unmatched?).map (SlideEdge.unmatched channel) := by
  induction os with
  | nil => rfl
  | cons o os ih =>
    cases o with
    | paired x y => exact ih
    | unclosed x => exact ih
    | unmatched y =>
      have hy : (y.unmatched channel).content.isUnmatchedOn channel = true := by
        simp [SlideEdge.unmatched, Warning.isUnmatchedOn]
      change ((y.unmatched channel :: (made channel os).warnings).filter _) = _
      rw [List.filter_cons, if_pos hy, ih]
      rfl

end Outcome

/-- Right outcomes that lose nothing make a pairing. -/
theorem isPairing_of_outcomes {E : List (SlideEdge α)} {os : List (Outcome α)} (hE : Placed E)
    (hedge : ∀ x ∈ E, x.IsStart ∨ x.IsEnd) (hordered : E.Pairwise SlideEdge.Before)
    (hcorrect : ∀ o ∈ os, o.Correct E)
    (hstarts : os.filterMap Outcome.start? ~ E.filter fun x => x.IsStart)
    (hstops : os.filterMap Outcome.stop? = E.filter fun x => ¬ x.IsStart) :
    IsPairing E (os.filterMap Outcome.pair?) (os.filterMap Outcome.unclosed?)
      (os.filterMap Outcome.unmatched?) := by
  have hstart (x : SlideEdge α) : x ∈ os.filterMap Outcome.start? ↔ x ∈ E ∧ x.IsStart := by
    rw [hstarts.mem_iff, List.mem_filter, decide_eq_true_eq]
  have hstop (y : SlideEdge α) : y ∈ os.filterMap Outcome.stop? ↔ y ∈ E ∧ y.IsEnd := by
    rw [hstops, List.mem_filter, decide_eq_true_eq]
    exact and_congr_right fun hy => ⟨(hedge y hy).resolve_left, fun h h' => h'.not_isEnd h⟩
  have hnodup : E.Nodup := hordered.imp SlideEdge.Before.ne
  have hpaired (x y : SlideEdge α) (h : Paired E x y) : .paired x y ∈ os := by
    rcases Outcome.mem_stops.1 ((hstop y).2 ⟨h.stop_mem, h.isEnd⟩) with ⟨x', hx'⟩ | hy
    · rwa [h.start_unique hE (hcorrect _ hx')]
    · exact absurd h (hcorrect _ hy x)
  refine
    { mem_pairs := fun x y => Outcome.mem_pairs.trans ⟨hcorrect _, hpaired x y⟩
      mem_unclosed := fun x => Outcome.mem_unclosed.trans ⟨fun h => ?_, fun ⟨hx, hxs, hno⟩ => ?_⟩
      mem_unmatched := fun y => Outcome.mem_unmatched.trans ⟨fun h => ?_, fun ⟨hy, hys, hno⟩ => ?_⟩
      ordered := ?_
      starts_once := (Outcome.starts_perm os).nodup_iff.2 (hstarts.nodup_iff.2 (hnodup.filter _))
      ends_once := (Outcome.stops_perm os).nodup_iff.2 (hstops ▸ hnodup.filter _) }
  · obtain ⟨hx, hxs⟩ := (hstart x).1 (Outcome.mem_starts.2 (Or.inr h))
    exact ⟨hx, hxs, hcorrect _ h⟩
  · rcases Outcome.mem_starts.1 ((hstart x).2 ⟨hx, hxs⟩) with ⟨y, hy⟩ | h
    · exact absurd (hcorrect _ hy) (hno y)
    · exact h
  · obtain ⟨hy, hys⟩ := (hstop y).1 (Outcome.mem_stops.2 (Or.inr h))
    exact ⟨hy, hys, hcorrect _ h⟩
  · rcases Outcome.mem_stops.1 ((hstop y).2 ⟨hy, hys⟩) with ⟨x, hx⟩ | h
    · exact absurd (hcorrect _ hx) (hno x)
    · exact h
  · have hsub := Outcome.stops_sublist os
    rw [hstops] at hsub
    exact (hordered.filter _).sublist hsub

section Chart

variable (channel : Nat) (lines : List (LaneLine α))

theorem assemble_on : (assemble lines).on channel = made channel (traceFrom channel 0 none lines) :=
  assembleFrom_on channel lines 0 ∅ (fun _ => none) (by simp)

theorem isPairing_traceFrom : IsPairing (edgesOn channel lines)
    ((traceFrom channel 0 none lines).filterMap Outcome.pair?)
    ((traceFrom channel 0 none lines).filterMap Outcome.unclosed?)
    ((traceFrom channel 0 none lines).filterMap Outcome.unmatched?) :=
  isPairing_of_outcomes placed_edgesOn (fun _ hx => isStart_or_isEnd hx)
    (pairwise_before_edgesFrom 0 lines) (outcomes_correct lines)
    (starts_traceFrom channel 0 none lines) (stops_traceFrom channel 0 none lines)

theorem filter_slides : (assemble lines).notes.filter (Note.isOn channel) =
    ((traceFrom channel 0 none lines).filterMap Outcome.pair?).map
      fun p => SlideEdge.slide channel p.1 p.2 := by
  rw [← Outcome.notes_made, ← assemble_on]
  rfl

theorem filter_unclosed :
    ((assemble lines).warnings.filter fun w => w.content.isUnclosedOn channel) =
      ((traceFrom channel 0 none lines).filterMap Outcome.unclosed?).map
        (SlideEdge.unclosed channel) := by
  rw [← Outcome.unclosed_made, ← assemble_on]
  simp only [Assembly.on, List.filter_filter]
  congr 1
  funext w
  cases w.content.isUnclosedOn channel <;> simp

theorem filter_unmatched :
    ((assemble lines).warnings.filter fun w => w.content.isUnmatchedOn channel) =
      ((traceFrom channel 0 none lines).filterMap Outcome.unmatched?).map
        (SlideEdge.unmatched channel) := by
  rw [← Outcome.unmatched_made, ← assemble_on]
  simp only [Assembly.on, List.filter_filter]
  congr 1
  funext w
  cases w.content.isUnmatchedOn channel <;> simp

variable {channel lines}

/-- A warning that a slide is never ended points at a start. -/
theorem exists_of_mem_unclosed {time : SlotTime} {span : Span}
    (h : ⟨.unclosedSlide channel time, span⟩ ∈ (assemble lines).warnings) :
    ∃ x ∈ edgesOn channel lines, x.IsStart ∧ x.slot.time = time ∧ x.span = span := by
  have hfilter : ⟨.unclosedSlide channel time, span⟩ ∈
      (assemble lines).warnings.filter fun w => w.content.isUnclosedOn channel :=
    List.mem_filter.2 ⟨h, decide_eq_true rfl⟩
  rw [filter_unclosed] at hfilter
  obtain ⟨x, hx, heq⟩ := List.mem_map.1 hfilter
  obtain ⟨hmem, hstart, -⟩ := ((isPairing_traceFrom channel lines).mem_unclosed x).1 hx
  cases heq
  exact ⟨x, hmem, hstart, rfl, rfl⟩

/-- A warning that a slide end has no start points at an end. -/
theorem exists_of_mem_unmatched {time : SlotTime} {span : Span}
    (h : ⟨.unmatchedSlideEnd channel time, span⟩ ∈ (assemble lines).warnings) :
    ∃ y ∈ edgesOn channel lines, y.IsEnd ∧ y.slot.time = time ∧ y.span = span := by
  have hfilter : ⟨.unmatchedSlideEnd channel time, span⟩ ∈
      (assemble lines).warnings.filter fun w => w.content.isUnmatchedOn channel :=
    List.mem_filter.2 ⟨h, decide_eq_true rfl⟩
  rw [filter_unmatched] at hfilter
  obtain ⟨y, hy, heq⟩ := List.mem_map.1 hfilter
  obtain ⟨hmem, hend, -⟩ := ((isPairing_traceFrom channel lines).mem_unmatched y).1 hy
  cases heq
  exact ⟨y, hmem, hend, rfl, rfl⟩

end Chart

/-- The slides of a channel, the warnings about its starts and those about its ends are those of the
pairing of its edges. -/
theorem assemble_pairs_slides (lines : List (LaneLine α)) (channel : Nat) :
    ∃ pairs unclosed unmatched, IsPairing (edgesOn channel lines) pairs unclosed unmatched ∧
      (assemble lines).notes.filter (Note.isOn channel) =
        pairs.map (fun p => SlideEdge.slide channel p.1 p.2) ∧
      ((assemble lines).warnings.filter fun w => w.content.isUnclosedOn channel) =
        unclosed.map (SlideEdge.unclosed channel) ∧
      ((assemble lines).warnings.filter fun w => w.content.isUnmatchedOn channel) =
        unmatched.map (SlideEdge.unmatched channel) :=
  ⟨_, _, _, isPairing_traceFrom channel lines, filter_slides channel lines,
    filter_unclosed channel lines, filter_unmatched channel lines⟩

end RhythmChart
