import RhythmChart.Proofs.Source.Lines

/-!
# The walk of a cursor

The lines of a text are the pieces that a line feed ends, and the piece behind the last line feed if it is not
empty (`Text.lines`).  A cursor has the lines ahead of it that begin at its index (`Cursor.ahead`), and each
call takes the first of them, whether it asks for the span or not, so after some calls as many lines are behind
the cursor (`Cursor.Behind`).  `Cursor.ask_after` says what a call gives back after any calls before it, and
where it leaves the cursor.
-/

namespace RhythmChart

/-! ## Lines -/

namespace Text

/-- The texts between line feeds.  The last one does not count if it is empty. -/
def lineTexts (s : List Char) : List (List Char) :=
  if (s.splitOn '\n').getLast? = some [] then (s.splitOn '\n').dropLast else s.splitOn '\n'

/-- The lines of a text: the pieces that a line feed ends, and the rest if it is not empty. -/
def lines (source : List Char) : List Piece := Piece.place 1 0 (lineTexts source)

theorem lineTexts_of_unbroken {s : List Char} (hne : s ≠ []) (h : '\n' ∉ s) : lineTexts s = [s] := by
  rw [lineTexts, List.splitOn_eq_singleton h]
  exact if_neg fun hs => hne (Option.some.inj hs)

theorem lineTexts_append {raw : List Char} (h : '\n' ∉ raw) (after : List Char) :
    lineTexts (raw ++ '\n' :: after) = raw :: lineTexts after := by
  obtain ⟨t, ts, hsplit⟩ := List.exists_cons_of_ne_nil (List.splitOn_ne_nil '\n' after)
  rw [lineTexts, List.splitOn_append_cons_self_of_not_mem h, lineTexts, hsplit, List.getLast?_cons_cons,
    List.dropLast_cons_cons]
  split <;> rfl

end Text

namespace Piece

/-- The index is where the next line begins: behind the line feed that ends the piece, or at the end of the
text. -/
inductive EndsBefore (source : List Char) (p : Piece) : Nat → Prop
  | feed (h : Text.Occurs source ⟨p.span.stop, p.span.stop + 1⟩ ['\n']) :
      EndsBefore source p (p.span.stop + 1)
  | rest (h : p.span.stop = Text.byteLength source) : EndsBefore source p (Text.byteLength source)

/-- The line is the piece without the blanks on both sides.  Its span begins with its first character, and is
somewhere in the piece if it has none. -/
structure TrimsTo (source : List Char) (p : Piece) (l : Line) : Prop where
  number : l.number = p.number
  text : l.text = Text.trim p.text
  length : l.span.stop = l.span.start + Text.byteLength l.text
  inside : p.span.start ≤ l.span.start ∧ l.span.stop ≤ p.span.stop
  occurs : Text.Occurs source l.span l.text
  first : p.isSolid = true → ∃ lead trail, Text.Trimmed p.text lead l.text trail ∧
    l.span.start = p.span.start + Text.byteLength lead

variable {source before after : List Char} {p : Piece}

theorem trimsTo_line (hsource : source = before ++ p.text ++ after) (hstart : Text.byteLength before = p.start) :
    p.TrimsTo source p.line := by
  obtain ⟨lead, trail, htrim, hspan⟩ := p.exists_trimmed
  refine ⟨rfl, rfl, ?_, p.span_line_inside, ?_, fun _ => ⟨lead, trail, htrim, ?_⟩⟩
  · rw [hspan]
    rfl
  · have hsplit : source = before ++ lead ++ Text.trim p.text ++ (trail ++ after) := by
      conv_lhs => rw [hsource, htrim.eq]
      simp only [List.append_assoc]
    rw [hspan, hsplit, ← hstart, ← Text.byteLength_append]
    exact Text.occurs_append (before ++ lead) (Text.trim p.text) (trail ++ after)
  · rw [hspan]
    rfl

/-- A carriage return at the end of the piece moves the span only if the line is blank, and within the piece
then. -/
theorem trimsTo_dropReturn (hsource : source = before ++ p.text ++ after)
    (hstart : Text.byteLength before = p.start) :
    p.TrimsTo source (Line.ofRaw p.number p.start (Cursor.dropReturn p.text)) := by
  by_cases hsolid : Text.trim p.text = []
  · rcases Cursor.dropReturn_cases p.text with hraw | hraw
    · rw [hraw]
      exact trimsTo_line hsource hstart
    · have hshort : source = before ++ Cursor.dropReturn p.text ++ ('\r' :: after) := by
        conv_lhs => rw [hsource, hraw]
        simp
      have hline := trimsTo_line (p := ⟨p.number, p.start, Cursor.dropReturn p.text⟩) hshort hstart
      have hlength := congrArg Text.byteLength hraw
      rw [Text.byteLength_append] at hlength
      refine ⟨rfl, Cursor.trim_dropReturn p.text, hline.length, ⟨hline.inside.1, ?_⟩, hline.occurs, ?_⟩
      · refine hline.inside.2.trans ?_
        rw [span, span, hlength]
        dsimp only
        omega
      · exact fun h => absurd hsolid (p.isSolid_iff.1 h)
  · rw [Cursor.ofRaw_dropReturn p.number p.start hsolid]
    exact trimsTo_line hsource hstart

end Piece

/-! ## Calls -/

namespace Cursor

/-- What a call asks for: the next line, or the next line with its span. -/
inductive Call where
  | line
  | spannedLine

/-- What a call gives back. -/
inductive Answer where
  | line (text : List Char)
  | spannedLine (span : Span) (text : List Char)
  deriving DecidableEq

/-- What is given back of a line. -/
def Call.answer : Call → Line → Answer
  | line, l => .line l.text
  | spannedLine, l => .spannedLine l.span l.text

/-- The answer to a call, if a line is left, and the cursor after the call. -/
def ask (c : Cursor) (call : Call) : Option Answer × Cursor :=
  match c.next? with
  | some (l, d) => (some (call.answer l), d)
  | none => (none, c)

/-- The cursor after some calls. -/
def after (c : Cursor) (calls : List Call) : Cursor := calls.foldl (fun c call => (c.ask call).2) c

/-- The lines that the cursor has not gone through. -/
def ahead (c : Cursor) : List Piece := Piece.place c.line c.index (Text.lineTexts c.rest)

theorem ask_of_some {c d : Cursor} {l : Line} (h : c.next? = some (l, d)) (call : Call) :
    c.ask call = (some (call.answer l), d) := by
  rw [ask, h]

theorem ask_of_none {c : Cursor} (h : c.next? = none) (call : Call) : c.ask call = (none, c) := by
  rw [ask, h]

section Reached

variable {source : List Char} {c : Cursor}

/-- A cursor is on a boundary of characters, and at the end just if its index is. -/
theorem Reached.boundary_index (h : Reached source c) : Text.Boundary source c.index ∧
    (c.isEnd = true ↔ Text.byteLength source ≤ c.index) := by
  obtain ⟨before, rfl, hindex⟩ := h.exists_append
  refine ⟨hindex ▸ Text.boundary_append before c.rest, ?_⟩
  rw [isEnd, List.isEmpty_iff, Text.byteLength_append, hindex]
  constructor
  · intro hrest
    rw [hrest]
    exact Nat.le_refl _
  · intro hle
    by_contra hne
    have := Text.byteLength_pos hne
    omega

theorem ahead_eq_nil_iff (c : Cursor) : c.ahead = [] ↔ c.next? = none := by
  rw [next?_eq_none_iff]
  constructor
  · intro h
    by_contra hrest
    obtain ⟨⟨l, d⟩, hnext⟩ := Option.ne_none_iff_exists'.1 (mt (next?_eq_none_iff c).1 hrest)
    rcases next?_cases hnext with ⟨hfeed, -, -⟩ | ⟨raw, after, hfeed, hsplit, -, -⟩
    · rw [ahead, Text.lineTexts_of_unbroken hrest hfeed] at h
      cases h
    · rw [ahead, hsplit, Text.lineTexts_append hfeed] at h
      cases h
  · intro h
    rw [ahead, h]
    rfl

/-- Consuming a line takes the first of the lines ahead. -/
theorem Reached.next?_ahead (h : Reached source c) {d : Cursor} {l : Line} (step : c.next? = some (l, d)) :
    ∃ p, c.ahead = p :: d.ahead ∧ p.TrimsTo source l ∧ p.EndsBefore source d.index ∧ d.line = c.line + 1 := by
  obtain ⟨before, hsource, hindex⟩ := h.exists_append
  have hrest : c.rest ≠ [] := fun hnil => by
    rw [(next?_eq_none_iff c).2 hnil] at step
    cases step
  rcases next?_cases step with ⟨hfeed, rfl, rfl⟩ | ⟨raw, after, hfeed, hsplit, rfl, rfl⟩
  · have hlength : c.index + Text.byteLength c.rest = Text.byteLength source := by
      rw [hsource, Text.byteLength_append, hindex]
    have hparts : source = before ++ c.rest ++ [] := by rw [hsource, List.append_nil]
    refine ⟨⟨c.line, c.index, c.rest⟩, ?_, Piece.trimsTo_line hparts hindex, ?_, rfl⟩
    · rw [ahead, Text.lineTexts_of_unbroken hrest hfeed]
      rfl
    · dsimp only
      rw [hlength]
      exact .rest hlength
  · have hparts : source = before ++ raw ++ ('\n' :: after) := by rw [hsource, hsplit, List.append_assoc]
    refine ⟨⟨c.line, c.index, raw⟩, ?_, Piece.trimsTo_dropReturn hparts hindex, .feed ?_, rfl⟩
    · rw [ahead, hsplit, Text.lineTexts_append hfeed]
      rfl
    · have hoccurs := Text.occurs_append (before ++ raw) ['\n'] after
      rw [Text.byteLength_append, hindex] at hoccurs
      rw [hparts, List.append_cons]
      exact hoccurs

end Reached

/-! ## Runs of calls -/

/-- The cursor is behind the first `k` lines, or behind all of them if there are fewer. -/
structure Behind (source : List Char) (k : Nat) (c : Cursor) : Prop where
  reached : Reached source c
  ahead : c.ahead = (Text.lines source).drop k
  line : c.line = min k (Text.lines source).length + 1

/-- The answer to a call after some calls before it, with the cursor `d` after it: the line that has as many
lines before it, or nothing if there is no such line. -/
inductive Answered (source : List Char) (before : Nat) (c : Cursor) (call : Call) :
    Option Answer × Cursor → Prop
  | line {p : Piece} {l : Line} {d : Cursor} (nth : (Text.lines source)[before]? = some p)
      (not_end : c.isEnd = false) (trims : p.TrimsTo source l) (number : d.line = before + 2)
      (index : p.EndsBefore source d.index) : Answered source before c call (some (call.answer l), d)
  | done (none_left : (Text.lines source).length ≤ before) (end_reached : c.isEnd = true) :
      Answered source before c call (none, c)

section Behind

variable {source : List Char} {k : Nat} {c : Cursor}

theorem behind_ofText (source : List Char) : Behind source 0 (ofText source) where
  reached := .start
  ahead := rfl
  line := by rw [Nat.zero_min]; rfl

theorem Behind.length_le (h : Behind source k c) (hnext : c.next? = none) :
    (Text.lines source).length ≤ k := by
  rw [← List.drop_eq_nil_iff, ← h.ahead, ahead_eq_nil_iff, hnext]

/-- A line that is consumed is the one with as many lines before it, and the cursor is behind it then. -/
theorem Behind.consume (h : Behind source k c) {d : Cursor} {l : Line} (hnext : c.next? = some (l, d)) :
    ∃ p, (Text.lines source)[k]? = some p ∧ p.TrimsTo source l ∧ p.EndsBefore source d.index ∧
      d.line = k + 2 ∧ Behind source (k + 1) d := by
  obtain ⟨p, hcons, htrims, hends, hnumber⟩ := h.reached.next?_ahead hnext
  have hnth : (Text.lines source)[k]? = some p := by
    rw [← List.head?_drop, ← h.ahead, hcons]
    rfl
  have hahead : d.ahead = (Text.lines source).drop (k + 1) := by
    rw [← List.drop_drop, ← h.ahead, hcons]
    rfl
  have hlt := (List.getElem?_eq_some_iff.1 hnth).1
  have hline := h.line
  exact ⟨p, hnth, htrims, hends, by omega, .next h.reached hnext, hahead, by omega⟩

/-- Each call goes behind one more line. -/
theorem Behind.ask (h : Behind source k c) (call : Call) : Behind source (k + 1) (c.ask call).2 := by
  cases hnext : c.next? with
  | none =>
    have hle := h.length_le hnext
    have hline := h.line
    rw [ask_of_none hnext]
    change Behind source (k + 1) c
    refine ⟨h.reached, ?_, by omega⟩
    rw [(ahead_eq_nil_iff c).2 hnext, List.drop_eq_nil_iff.2 (by omega)]
  | some next =>
    obtain ⟨-, -, -, -, -, hbehind⟩ := h.consume hnext
    rw [ask_of_some hnext]
    exact hbehind

theorem Behind.after (h : Behind source k c) (calls : List Call) :
    Behind source (k + calls.length) (c.after calls) := by
  induction calls generalizing k c with
  | nil => exact h
  | cons call calls ih =>
    rw [List.length_cons, Nat.add_comm calls.length, ← Nat.add_assoc]
    exact ih (h.ask call)

theorem Behind.answered (h : Behind source k c) (call : Call) :
    Answered source k c call (c.ask call) := by
  cases hnext : c.next? with
  | none =>
    rw [ask_of_none hnext]
    exact .done (h.length_le hnext) (List.isEmpty_iff.2 ((next?_eq_none_iff c).1 hnext))
  | some next =>
    obtain ⟨p, hnth, htrims, hends, hnumber, -⟩ := h.consume hnext
    have hend : c.isEnd = false := by
      rw [isEnd, List.isEmpty_eq_false_iff, ne_eq, ← next?_eq_none_iff, hnext]
      exact nofun
    rw [ask_of_some hnext]
    exact .line hnth hend htrims hnumber hends

end Behind

/-- A call gives back the line that has as many lines before it as calls were made, of whatever sort, and
leaves the cursor behind this line.  When no line is left, the cursor is at the end of the text and stays
there.  It is always on a boundary of characters. -/
theorem ask_after (source : List Char) (calls : List Call) (call : Call) :
    let c := (ofText source).after calls
    Text.Boundary source c.index ∧ (c.isEnd = true ↔ Text.byteLength source ≤ c.index) ∧
      Answered source calls.length c call (c.ask call) := by
  have hbehind : Behind source calls.length ((ofText source).after calls) := by
    rw [← Nat.zero_add calls.length]
    exact (behind_ofText source).after calls
  obtain ⟨hboundary, hend⟩ := hbehind.reached.boundary_index
  exact ⟨hboundary, hend, hbehind.answered call⟩

/-- The third line has a blank of three bytes in front, and a carriage return but no line feed behind it. -/
example : ((ofText "a\n \r\n\u3000é\r".toList).after [.line, .spannedLine]).ask .spannedLine =
    (some (.spannedLine ⟨8, 10⟩ ['é']), ⟨4, 11, []⟩) := by
  decide

end Cursor

end RhythmChart
