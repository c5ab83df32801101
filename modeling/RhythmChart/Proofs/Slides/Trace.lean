import Mathlib.Data.List.Basic
import RhythmChart.Assembly

/-!
# What becomes of slide edges

The slots of slide lines that start or end a slide are edges.  `SlideEdge` keeps the place of an edge,
`edgesOn c lines` lists the edges of a channel `c` in order.  The pairing of one channel is a machine
with two memories, the start that waits on the line and the one that waits on the channel
(`Waiting`).  Each step and each end of a line yields outcomes (`Outcome`): a start with its end, a start
without an end, an end without a start.

`assembleFrom_on` says that notes and warnings of a channel are those of its outcomes.  The two laws
`starts_traceFrom` and `stops_traceFrom` say that outcomes lose nothing: each start has one outcome, and
each end has one, in the order of the ends.
-/

open scoped List

namespace RhythmChart

variable {α : Type}

/-! ## Edges -/

/-- A slot that starts or ends a slide, with its place. -/
structure SlideEdge (α : Type) where
  /-- The number of its line among all lines, from zero. -/
  line : Nat
  /-- Its number among the edges of its line, from zero. -/
  index : Nat
  lane : Nat
  span : Span
  slot : Slot α

/-- The first digit of an edge is 1 or 2. -/
def Slot.isEdge (s : Slot α) : Bool := s.high.val = 1 ∨ s.high.val = 2

namespace SlideEdge

def IsStart (x : SlideEdge α) : Prop := x.slot.high.val = 1

def IsEnd (x : SlideEdge α) : Prop := x.slot.high.val = 2

instance : DecidablePred (IsStart (α := α)) :=
  fun x => inferInstanceAs (Decidable (x.slot.high.val = 1))

instance : DecidablePred (IsEnd (α := α)) :=
  fun x => inferInstanceAs (Decidable (x.slot.high.val = 2))

theorem IsStart.not_isEnd {x : SlideEdge α} (h : x.IsStart) : ¬ x.IsEnd := by
  intro h'
  have : 1 = 2 := h.symm.trans h'
  exact absurd this (by decide)

/-- The edge comes before another one: on an earlier line, or earlier on the same line. -/
def Before (x y : SlideEdge α) : Prop :=
  x.line < y.line ∨ x.line = y.line ∧ x.index < y.index

/-- The lane of the line, and the second digit of the slot as the width. -/
def mark (x : SlideEdge α) : Mark α := ⟨x.lane, x.slot.low.val, x.slot.beat⟩

def opened (x : SlideEdge α) : OpenSlide α := ⟨x.mark, x.slot.time, x.span⟩

def slide (channel : Nat) (x y : SlideEdge α) : Note (Mark α) :=
  .slide channel ⟨x.lane, x.slot.low.val, x.slot.beat⟩ ⟨y.lane, y.slot.low.val, y.slot.beat⟩

def unclosed (channel : Nat) (x : SlideEdge α) : Spanned Warning :=
  ⟨.unclosedSlide channel x.slot.time, x.span⟩

def unmatched (channel : Nat) (y : SlideEdge α) : Spanned Warning :=
  ⟨.unmatchedSlideEnd channel y.slot.time, y.span⟩

/-- Slots of a line as its edges from a number on. -/
def ofSlots (line lane : Nat) (span : Span) (index : Nat) (slots : List (Slot α)) :
    List (SlideEdge α) :=
  (slots.zipIdx index).map fun (s, i) => ⟨line, i, lane, span, s⟩

@[simp]
theorem ofSlots_nil (line lane : Nat) (span : Span) (index : Nat) :
    ofSlots line lane span index ([] : List (Slot α)) = [] := rfl

@[simp]
theorem ofSlots_cons (line lane : Nat) (span : Span) (index : Nat) (s : Slot α)
    (slots : List (Slot α)) :
    ofSlots line lane span index (s :: slots) =
      ⟨line, index, lane, span, s⟩ :: ofSlots line lane span (index + 1) slots := rfl

end SlideEdge

/-- The edges of a line on a channel, if the line is a slide line on it. -/
def LaneLine.edges (channel number : Nat) : LaneLine α → List (SlideEdge α)
  | .taps _ _ => []
  | .slides lane c slots span =>
    if c = channel then SlideEdge.ofSlots number lane span 0 (slots.filter Slot.isEdge) else []

/-- The edges on a channel of lines that are numbered from some number on. -/
def edgesFrom (channel number : Nat) (lines : List (LaneLine α)) : List (SlideEdge α) :=
  (lines.zipIdx number).flatMap fun (l, i) => l.edges channel i

def edgesOn (channel : Nat) (lines : List (LaneLine α)) : List (SlideEdge α) :=
  edgesFrom channel 0 lines

@[simp]
theorem edgesFrom_nil (channel number : Nat) :
    edgesFrom channel number ([] : List (LaneLine α)) = [] := rfl

@[simp]
theorem edgesFrom_cons (channel number : Nat) (l : LaneLine α) (lines : List (LaneLine α)) :
    edgesFrom channel number (l :: lines) =
      l.edges channel number ++ edgesFrom channel (number + 1) lines := rfl

/-! ## The machine of one channel -/

inductive Outcome (α : Type) where
  | paired (start stop : SlideEdge α)
  | unclosed (start : SlideEdge α)
  | unmatched (stop : SlideEdge α)

/-- The starts that wait for an end. -/
structure Waiting (α : Type) where
  onLine : Option (SlideEdge α)
  onChannel : Option (SlideEdge α)

namespace Waiting

def step (w : Waiting α) (y : SlideEdge α) : List (Outcome α) × Waiting α :=
  if y.IsStart then (w.onLine.toList.map .unclosed, ⟨some y, w.onChannel⟩)
  else
    match w with
    | ⟨some x, c⟩ => ([.paired x y], ⟨none, c⟩)
    | ⟨none, some x⟩ => ([.paired x y], ⟨none, none⟩)
    | ⟨none, none⟩ => ([.unmatched y], ⟨none, none⟩)

/-- Takes the edges of a line, or of a part of it. -/
def run (w : Waiting α) : List (SlideEdge α) → List (Outcome α) × Waiting α
  | [] => ([], w)
  | y :: ys => ((w.step y).1 ++ ((w.step y).2.run ys).1, ((w.step y).2.run ys).2)

/-- Ends a line.  The start that waits on it waits on the channel from now on. -/
def endLine (w : Waiting α) : List (Outcome α) × Option (SlideEdge α) :=
  match w.onLine with
  | none => ([], w.onChannel)
  | some x => (w.onChannel.toList.map .unclosed, some x)

end Waiting

/-- The outcomes of a channel, from the start that waits on it before some lines to the end. -/
def traceFrom (channel number : Nat) (waiting : Option (SlideEdge α)) :
    List (LaneLine α) → List (Outcome α)
  | [] => waiting.toList.map .unclosed
  | l :: lines =>
    let r := Waiting.run ⟨none, waiting⟩ (l.edges channel number)
    r.1 ++ r.2.endLine.1 ++ traceFrom channel (number + 1) r.2.endLine.2 lines

/-! ## Notes and warnings of a channel -/

def Outcome.note? (channel : Nat) : Outcome α → Option (Note (Mark α))
  | .paired x y => some (SlideEdge.slide channel x y)
  | _ => none

def Outcome.warning? (channel : Nat) : Outcome α → Option (Spanned Warning)
  | .paired _ _ => none
  | .unclosed x => some (x.unclosed channel)
  | .unmatched y => some (y.unmatched channel)

def made (channel : Nat) (os : List (Outcome α)) : Assembly α :=
  ⟨os.filterMap (Outcome.note? channel), os.filterMap (Outcome.warning? channel)⟩

def Note.isOn {π : Type} (channel : Nat) : Note π → Bool
  | .tap _ => false
  | .slide c _ _ => c = channel

def Warning.isUnclosedOn (channel : Nat) : Warning → Bool
  | .unclosedSlide c _ => c = channel
  | _ => false

def Warning.isUnmatchedOn (channel : Nat) : Warning → Bool
  | .unmatchedSlideEnd c _ => c = channel
  | _ => false

/-- The part of an assembly that is about a channel. -/
def Assembly.on (channel : Nat) (a : Assembly α) : Assembly α :=
  ⟨a.notes.filter (Note.isOn channel),
    a.warnings.filter fun w =>
      w.content.isUnclosedOn channel || w.content.isUnmatchedOn channel⟩

namespace Assembly

@[ext]
theorem ext {a b : Assembly α} (notes : a.notes = b.notes) (warnings : a.warnings = b.warnings) :
    a = b := by
  cases a; cases b; simp_all

@[simp]
theorem notes_append (a b : Assembly α) : (a ++ b).notes = a.notes ++ b.notes := rfl

@[simp]
theorem warnings_append (a b : Assembly α) : (a ++ b).warnings = a.warnings ++ b.warnings := rfl

theorem append_assoc (a b c : Assembly α) : a ++ b ++ c = a ++ (b ++ c) := by
  ext1 <;> simp

@[simp]
theorem empty_append (a : Assembly α) : empty ++ a = a := rfl

@[simp]
theorem on_append (channel : Nat) (a b : Assembly α) :
    (a ++ b).on channel = a.on channel ++ b.on channel := by
  ext1 <;> simp [on]

end Assembly

@[simp]
theorem made_nil (channel : Nat) : made channel ([] : List (Outcome α)) = .empty := rfl

@[simp]
theorem made_append (channel : Nat) (os os' : List (Outcome α)) :
    made channel (os ++ os') = made channel os ++ made channel os' := by
  ext1 <;> simp [made]

theorem on_made_self (channel : Nat) (os : List (Outcome α)) :
    (made channel os).on channel = made channel os := by
  ext1
  · refine List.filter_eq_self.2 fun n hn => ?_
    obtain ⟨o, -, ho⟩ := List.mem_filterMap.1 hn
    cases o <;> simp only [Outcome.note?, reduceCtorEq, Option.some.injEq] at ho
    subst ho
    simp [SlideEdge.slide, Note.isOn]
  · refine List.filter_eq_self.2 fun w hw => ?_
    obtain ⟨o, -, ho⟩ := List.mem_filterMap.1 hw
    cases o <;> simp only [Outcome.warning?, reduceCtorEq, Option.some.injEq] at ho <;> subst ho <;>
      simp [SlideEdge.unclosed, SlideEdge.unmatched, Warning.isUnclosedOn, Warning.isUnmatchedOn]

theorem on_made_of_ne {channel other : Nat} (h : other ≠ channel) (os : List (Outcome α)) :
    (made other os).on channel = .empty := by
  ext1
  · refine List.filter_eq_nil_iff.2 fun n hn => ?_
    obtain ⟨o, -, ho⟩ := List.mem_filterMap.1 hn
    cases o <;> simp only [Outcome.note?, reduceCtorEq, Option.some.injEq] at ho
    subst ho
    simp [SlideEdge.slide, Note.isOn, h]
  · refine List.filter_eq_nil_iff.2 fun w hw => ?_
    obtain ⟨o, -, ho⟩ := List.mem_filterMap.1 hw
    cases o <;> simp only [Outcome.warning?, reduceCtorEq, Option.some.injEq] at ho <;> subst ho <;>
      simp [SlideEdge.unclosed, SlideEdge.unmatched, Warning.isUnclosedOn, Warning.isUnmatchedOn, h]

theorem unclosed_map_opened (channel : Nat) (x : Option (SlideEdge α)) :
    Assembly.unclosed channel (x.map SlideEdge.opened) = made channel (x.toList.map .unclosed) := by
  cases x <;> rfl

/-! ## Lines follow the machine -/

theorem eq_slideStart_iff {d : Digit} : d = slideStart ↔ d.val = 1 := Fin.ext_iff

theorem eq_slideEnd_iff {d : Digit} : d = slideEnd ↔ d.val = 2 := Fin.ext_iff

/-- Goes on with a line from what the machine remembers. -/
def Waiting.resume (lane channel : Nat) (span : Span) (w : Waiting α) (slots : List (Slot α)) :
    Assembly α × Option (OpenSlide α) :=
  slideLine lane channel span (w.onLine.map SlideEdge.opened) (w.onChannel.map SlideEdge.opened) slots

theorem resume_cons_edge (line lane channel index : Nat) (span : Span) (w : Waiting α)
    {s : Slot α} (hs : s.isEdge = true) (slots : List (Slot α)) :
    w.resume lane channel span (s :: slots) =
      (made channel (w.step ⟨line, index, lane, span, s⟩).1 ++
          ((w.step ⟨line, index, lane, span, s⟩).2.resume lane channel span slots).1,
        ((w.step ⟨line, index, lane, span, s⟩).2.resume lane channel span slots).2) := by
  obtain ⟨onLine, onChannel⟩ := w
  by_cases hstart : s.high.val = 1
  · simp only [Waiting.resume, slideLine, eq_slideStart_iff, Waiting.step, SlideEdge.IsStart, hstart,
      ↓reduceIte, unclosed_map_opened, Option.map_some]
    rfl
  · have hstop : s.high.val = 2 := by simpa [Slot.isEdge, hstart] using hs
    have hne : 2 ≠ 1 := by decide
    cases onLine <;> cases onChannel <;>
      simp only [Waiting.resume, slideLine, eq_slideStart_iff, eq_slideEnd_iff, Waiting.step, SlideEdge.IsStart,
        hstop, hne, ↓reduceIte, Option.map_some, Option.map_none] <;> rfl

theorem resume_cons_of_not_edge (lane channel : Nat) (span : Span) (w : Waiting α) {s : Slot α}
    (hs : ¬ s.isEdge = true) (slots : List (Slot α)) :
    w.resume lane channel span (s :: slots) = w.resume lane channel span slots := by
  have h : s.high.val ≠ 1 ∧ s.high.val ≠ 2 := by simpa [Slot.isEdge] using hs
  simp only [Waiting.resume, slideLine, eq_slideStart_iff, eq_slideEnd_iff, h.1, h.2, ↓reduceIte]

/-- The rest of a line makes what the machine makes of its edges. -/
theorem resume_eq_run (line lane channel : Nat) (span : Span) (slots : List (Slot α)) (index : Nat)
    (w : Waiting α) :
    w.resume lane channel span slots =
      let r := w.run (SlideEdge.ofSlots line lane span index (slots.filter Slot.isEdge))
      (made channel (r.1 ++ r.2.endLine.1), r.2.endLine.2.map SlideEdge.opened) := by
  induction slots generalizing index w with
  | nil =>
    obtain ⟨_ | x, onChannel⟩ := w
    · rfl
    · simp only [Waiting.resume, slideLine, unclosed_map_opened, Option.map_some]
      rfl
  | cons s slots ih =>
    by_cases hs : s.isEdge = true
    · rw [resume_cons_edge line lane channel index span w hs, ih (index + 1),
        List.filter_cons_of_pos hs]
      simp only [SlideEdge.ofSlots_cons, Waiting.run, made_append, Assembly.append_assoc]
    · rw [resume_cons_of_not_edge lane channel span w hs, ih index, List.filter_cons_of_neg hs]

/-! ## Charts follow the machine -/

theorem getElem?_set_self (opened : OpenSlides α) (channel : Nat) (w : Option (OpenSlide α)) :
    (opened.set channel w)[channel]? = w := by
  cases w <;> simp [OpenSlides.set]

theorem getElem?_set_of_ne (opened : OpenSlides α) {channel other : Nat} (h : other ≠ channel)
    (w : Option (OpenSlide α)) : (opened.set other w)[channel]? = opened[channel]? := by
  cases w with
  | none => simp [OpenSlides.set, Std.TreeMap.getElem?_erase, h]
  | some s => simp [OpenSlides.set, Std.TreeMap.getElem?_insert, h]

/-- The entries of a channel among those of all channels. -/
theorem filter_toList_eq (opened : OpenSlides α) (channel : Nat) :
    opened.toList.filter (fun e => e.1 = channel) =
      (opened[channel]?.map fun s => (channel, s)).toList := by
  have hmem (e : Nat × OpenSlide α) : e ∈ opened.toList ↔ opened[e.1]? = some e.2 :=
    Std.TreeMap.mem_toList_iff_getElem?_eq_some
  cases hc : opened[channel]? with
  | none =>
    refine List.filter_eq_nil_iff.2 fun e he => ?_
    have := (hmem e).1 he
    rintro hk
    simp_all
  | some s =>
    have hnodup : opened.toList.Nodup :=
      Std.TreeMap.distinct_keys_toList.imp fun hne heq => hne (by rw [heq]; exact Std.ReflCmp.compare_self)
    refine List.perm_singleton.1 ((List.perm_ext_iff_of_nodup (hnodup.filter _) (by simp)).2 ?_)
    intro e
    simp only [List.mem_filter, hmem, decide_eq_true_eq, List.mem_singleton, Prod.ext_iff]
    constructor
    · rintro ⟨he, hk⟩
      rw [hk, hc] at he
      exact ⟨hk, (Option.some.inj he).symm⟩
    · rintro ⟨hk, hv⟩
      exact ⟨by rw [hk, hv, hc], hk⟩

/-- What is said about a channel at the end of a chart. -/
theorem on_unclosed (opened : OpenSlides α) (channel : Nat) :
    opened.unclosed.on channel = Assembly.unclosed channel opened[channel]? := by
  have h : opened.unclosed.on channel =
      ⟨[], (opened.toList.filter (fun e => e.1 = channel)).map
        fun e => ⟨.unclosedSlide e.1 e.2.time, e.2.span⟩⟩ := by
    ext1
    · rfl
    · simp only [OpenSlides.unclosed, Assembly.on, List.filter_map, Function.comp_def,
        Warning.isUnclosedOn, Warning.isUnmatchedOn, Bool.or_false]
  rw [h, filter_toList_eq]
  cases opened[channel]? <;> rfl

/-- A slide line makes what the machine makes of its edges, and leaves what the machine leaves. -/
theorem slideLine_eq_run (number lane channel : Nat) (span : Span) {onChannel : Option (OpenSlide α)}
    {waiting : Option (SlideEdge α)} (h : onChannel = waiting.map SlideEdge.opened)
    (slots : List (Slot α)) :
    slideLine lane channel span none onChannel slots =
      let r := Waiting.run ⟨none, waiting⟩
        (SlideEdge.ofSlots number lane span 0 (slots.filter Slot.isEdge))
      (made channel (r.1 ++ r.2.endLine.1), r.2.endLine.2.map SlideEdge.opened) := by
  subst h
  exact resume_eq_run number lane channel span slots 0 ⟨none, waiting⟩

theorem getElem?_set_update {opened : OpenSlides α} {waiting : Nat → Option (SlideEdge α)}
    (h : ∀ c : Nat, opened[c]? = (waiting c).map SlideEdge.opened) (channel : Nat)
    (w : Option (SlideEdge α)) (c : Nat) :
    (opened.set channel (w.map SlideEdge.opened))[c]? =
      (Function.update waiting channel w c).map SlideEdge.opened := by
  by_cases hc : channel = c
  · subst hc
    rw [getElem?_set_self, Function.update_self]
  · rw [getElem?_set_of_ne _ hc, h c, Function.update_of_ne (Ne.symm hc)]

theorem traceFrom_taps (channel number : Nat) (waiting : Option (SlideEdge α)) (lane : Nat)
    (slots : List (Slot α)) (lines : List (LaneLine α)) :
    traceFrom channel number waiting (.taps lane slots :: lines) =
      traceFrom channel (number + 1) waiting lines := rfl

/-- A line on another channel leaves a channel as it is. -/
theorem traceFrom_slides_of_ne {channel c : Nat} (h : c ≠ channel) (number : Nat)
    (waiting : Option (SlideEdge α)) (lane : Nat) (slots : List (Slot α)) (span : Span)
    (lines : List (LaneLine α)) :
    traceFrom channel number waiting (.slides lane c slots span :: lines) =
      traceFrom channel (number + 1) waiting lines := by
  rw [traceFrom, LaneLine.edges, if_neg h]
  rfl

/-- Notes and warnings of a channel are those of its outcomes. -/
theorem assembleFrom_on (channel : Nat) (lines : List (LaneLine α)) (number : Nat)
    (opened : OpenSlides α) (waiting : Nat → Option (SlideEdge α))
    (h : ∀ c : Nat, opened[c]? = (waiting c).map SlideEdge.opened) :
    (assembleFrom opened lines).on channel =
      made channel (traceFrom channel number (waiting channel) lines) := by
  induction lines generalizing number opened waiting with
  | nil => rw [assembleFrom, on_unclosed, h, unclosed_map_opened, traceFrom]
  | cons l lines ih =>
    cases l with
    | taps lane slots =>
      rw [assembleFrom, Assembly.on_append, ih (number + 1) opened waiting h, traceFrom_taps]
      have htaps : Assembly.on channel
          (⟨slots.map fun s => .tap (s.mark lane), []⟩ : Assembly α) = .empty := by
        ext1
        · exact List.filter_eq_nil_iff.2 (by simp [Note.isOn])
        · rfl
      rw [htaps, Assembly.empty_append]
    | slides lane c slots span =>
      rw [assembleFrom, slideLine_eq_run number lane c span (h c) slots]
      simp only [Assembly.on_append, ih (number + 1) _ _ (getElem?_set_update h c _)]
      by_cases hc : c = channel
      · subst hc
        rw [on_made_self, Function.update_self, traceFrom, LaneLine.edges, if_pos rfl]
        simp only [made_append]
      · rw [on_made_of_ne hc, Function.update_of_ne (Ne.symm hc), traceFrom_slides_of_ne hc,
          Assembly.empty_append]

/-! ## Outcomes lose nothing -/

namespace Outcome

def start? : Outcome α → Option (SlideEdge α)
  | .paired x _ => some x
  | .unclosed x => some x
  | .unmatched _ => none

def stop? : Outcome α → Option (SlideEdge α)
  | .paired _ y => some y
  | .unclosed _ => none
  | .unmatched y => some y

end Outcome

def Waiting.starts (w : Waiting α) : List (SlideEdge α) := w.onChannel.toList ++ w.onLine.toList

theorem filterMap_start?_unclosed (xs : List (SlideEdge α)) :
    (xs.map Outcome.unclosed).filterMap Outcome.start? = xs := by
  simp [List.filterMap_map, Function.comp_def, Outcome.start?]

theorem filterMap_stop?_unclosed (xs : List (SlideEdge α)) :
    (xs.map Outcome.unclosed).filterMap Outcome.stop? = [] := by
  simp [List.filterMap_map, Function.comp_def, Outcome.stop?]

theorem starts_step (w : Waiting α) (y : SlideEdge α) :
    ((w.step y).1.filterMap Outcome.start? ++ (w.step y).2.starts).Perm
      (w.starts ++ [y].filter fun x => x.IsStart) := by
  obtain ⟨onLine, onChannel⟩ := w
  by_cases hy : y.IsStart
  · simp only [Waiting.step, hy, ↓reduceIte, filterMap_start?_unclosed, Waiting.starts,
      Option.toList_some, List.filter_cons, List.filter_nil, decide_true]
    rw [← List.append_assoc]
    exact List.Perm.append_right _ List.perm_append_comm
  · cases onLine <;> cases onChannel <;>
      simp [Waiting.step, hy, Waiting.starts, Outcome.start?, List.Perm.swap]

theorem starts_run (w : Waiting α) (ys : List (SlideEdge α)) :
    ((w.run ys).1.filterMap Outcome.start? ++ (w.run ys).2.starts).Perm
      (w.starts ++ ys.filter fun x => x.IsStart) := by
  induction ys generalizing w with
  | nil => simp [Waiting.run]
  | cons y ys ih =>
    calc (w.run (y :: ys)).1.filterMap Outcome.start? ++ (w.run (y :: ys)).2.starts
        = (w.step y).1.filterMap Outcome.start? ++
            (((w.step y).2.run ys).1.filterMap Outcome.start? ++ ((w.step y).2.run ys).2.starts) := by
          rw [Waiting.run, List.filterMap_append, List.append_assoc]
      _ ~ ((w.step y).1.filterMap Outcome.start? ++
            ((w.step y).2.starts ++ ys.filter fun x => x.IsStart)) := (ih _).append_left _
      _ = ((w.step y).1.filterMap Outcome.start? ++ (w.step y).2.starts) ++
            ys.filter fun x => x.IsStart := (List.append_assoc _ _ _).symm
      _ ~ ((w.starts ++ [y].filter fun x => x.IsStart) ++ ys.filter fun x => x.IsStart) :=
          (starts_step w y).append_right _
      _ = w.starts ++ (y :: ys).filter fun x => x.IsStart := by
          rw [List.append_assoc, ← List.filter_append]
          rfl

theorem starts_endLine (w : Waiting α) :
    w.endLine.1.filterMap Outcome.start? ++ w.endLine.2.toList = w.starts := by
  obtain ⟨_ | x, onChannel⟩ := w
  · simp [Waiting.endLine, Waiting.starts]
  · rw [Waiting.endLine, filterMap_start?_unclosed]
    rfl

theorem stops_step (w : Waiting α) (y : SlideEdge α) :
    (w.step y).1.filterMap Outcome.stop? = [y].filter fun x => ¬ x.IsStart := by
  obtain ⟨onLine, onChannel⟩ := w
  by_cases hy : y.IsStart
  · simp only [Waiting.step, hy, ↓reduceIte, filterMap_stop?_unclosed]
    simp [hy]
  · cases onLine <;> cases onChannel <;> simp [Waiting.step, hy, Outcome.stop?]

theorem stops_run (w : Waiting α) (ys : List (SlideEdge α)) :
    (w.run ys).1.filterMap Outcome.stop? = ys.filter fun x => ¬ x.IsStart := by
  induction ys generalizing w with
  | nil => rfl
  | cons y ys ih =>
    rw [Waiting.run, List.filterMap_append, stops_step, ih, ← List.filter_append]
    rfl

theorem stops_endLine (w : Waiting α) : w.endLine.1.filterMap Outcome.stop? = [] := by
  obtain ⟨_ | x, onChannel⟩ := w
  · rfl
  · exact filterMap_stop?_unclosed _

/-- Each start has one outcome, also the one that waits already. -/
theorem starts_traceFrom (channel number : Nat) (waiting : Option (SlideEdge α))
    (lines : List (LaneLine α)) :
    ((traceFrom channel number waiting lines).filterMap Outcome.start?).Perm
      (waiting.toList ++ (edgesFrom channel number lines).filter fun x => x.IsStart) := by
  induction lines generalizing number waiting with
  | nil => rw [traceFrom, filterMap_start?_unclosed, edgesFrom_nil, List.filter_nil, List.append_nil]
  | cons l lines ih =>
    set r := Waiting.run ⟨none, waiting⟩ (l.edges channel number) with hr
    have hrun : (r.1.filterMap Outcome.start? ++ r.2.starts).Perm
        (waiting.toList ++ (l.edges channel number).filter fun x => x.IsStart) := by
      simpa [Waiting.starts] using starts_run ⟨none, waiting⟩ (l.edges channel number)
    calc (traceFrom channel number waiting (l :: lines)).filterMap Outcome.start?
        = r.1.filterMap Outcome.start? ++ r.2.endLine.1.filterMap Outcome.start? ++
            (traceFrom channel (number + 1) r.2.endLine.2 lines).filterMap Outcome.start? := by
          rw [traceFrom, ← hr, List.filterMap_append, List.filterMap_append]
      _ ~ (r.1.filterMap Outcome.start? ++ r.2.endLine.1.filterMap Outcome.start? ++
            (r.2.endLine.2.toList ++
              (edgesFrom channel (number + 1) lines).filter fun x => x.IsStart)) :=
          (ih _ _).append_left _
      _ = (r.1.filterMap Outcome.start? ++ r.2.starts) ++
            (edgesFrom channel (number + 1) lines).filter fun x => x.IsStart := by
          rw [← starts_endLine r.2]
          simp only [List.append_assoc]
      _ ~ ((waiting.toList ++ (l.edges channel number).filter fun x => x.IsStart) ++
            (edgesFrom channel (number + 1) lines).filter fun x => x.IsStart) :=
          hrun.append_right _
      _ = waiting.toList ++ (edgesFrom channel number (l :: lines)).filter fun x => x.IsStart := by
          rw [edgesFrom_cons, List.filter_append, List.append_assoc]

/-- Each end has one outcome, in the order of the ends. -/
theorem stops_traceFrom (channel number : Nat) (waiting : Option (SlideEdge α))
    (lines : List (LaneLine α)) :
    (traceFrom channel number waiting lines).filterMap Outcome.stop? =
      (edgesFrom channel number lines).filter fun x => ¬ x.IsStart := by
  induction lines generalizing number waiting with
  | nil => exact filterMap_stop?_unclosed _
  | cons l lines ih =>
    simp only [traceFrom, List.filterMap_append, stops_run, stops_endLine, ih, edgesFrom_cons,
      List.filter_append, List.append_nil]

end RhythmChart
