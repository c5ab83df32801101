import Mathlib
import RhythmChart.Proofs.Source.Bytes
import RhythmChart.Token

/-!
# The lines that tokens are read from

`Text.pieces` cuts a text at its line feeds and tells for each piece its number and where it begins.  The
lines of a cursor are the trimmed pieces, blank ones apart (`Cursor.filter_lines`): what a cursor does
with a carriage return and with the end of the text makes no difference to a line that is not blank.
`scan_forall₂_pieces` says that a text's tokens are read from its pieces that are not blank, one from
each in order, and that the span of a token is where the trimmed piece stands.  If the text has no
tokens, that is for the first line that is malformed (`exists_malformed`).
-/

namespace RhythmChart

/-! ## Pieces -/

/-- A piece of a text between line feeds. -/
structure Piece where
  /-- Its number, from one. -/
  number : Nat
  /-- The offset of its first byte. -/
  start : Nat
  text : List Char

namespace Piece

def span (p : Piece) : Span := ⟨p.start, p.start + Text.byteLength p.text⟩

/-- The piece, trimmed. -/
def line (p : Piece) : Line := Line.ofRaw p.number p.start p.text

/-- Some character of the piece is no blank. -/
def isSolid (p : Piece) : Bool := p.text.any fun c => !Text.isBlank c

/-- Texts as pieces from a number and an offset on, with a line feed between them. -/
def place (number start : Nat) : List (List Char) → List Piece
  | [] => []
  | t :: ts => ⟨number, start, t⟩ :: place (number + 1) (start + Text.byteLength t + 1) ts

theorem isSolid_iff (p : Piece) : p.isSolid = true ↔ Text.trim p.text ≠ [] := by
  simp [isSolid, Text.trim_eq_nil_iff]

theorem isEmpty_text_line (p : Piece) : p.line.text.isEmpty = !p.isSolid := by
  have hsolid := p.isSolid_iff
  have htext : p.line.text = Text.trim p.text := rfl
  cases hp : p.isSolid with
  | false => rw [htext, not_not.1 (mt hsolid.2 (by simp [hp]))]; rfl
  | true => rw [htext, List.isEmpty_eq_false_iff.2 (hsolid.1 hp)]; rfl

theorem le_start_of_mem_place {number start : Nat} {ts : List (List Char)} {p : Piece}
    (h : p ∈ place number start ts) : start ≤ p.start := by
  induction ts generalizing number start with
  | nil => cases h
  | cons t ts ih =>
    rcases List.mem_cons.1 h with rfl | h
    · exact Nat.le_refl _
    · have := ih h
      omega

/-- Pieces are apart by a line feed at least. -/
theorem pairwise_place (number start : Nat) (ts : List (List Char)) :
    (place number start ts).Pairwise fun p q => p.span.stop < q.span.start := by
  induction ts generalizing number start with
  | nil => exact List.Pairwise.nil
  | cons t ts ih => exact List.Pairwise.cons (fun q hq => le_start_of_mem_place hq) (ih _ _)

/-- A piece stands in the text that the pieces make, after what its offset counts. -/
theorem exists_append_of_mem_place {number : Nat} {before : List Char} {ts : List (List Char)}
    {p : Piece} (h : p ∈ place number (Text.byteLength before) ts) :
    ∃ b a, before ++ ['\n'].intercalate ts = b ++ p.text ++ a ∧ Text.byteLength b = p.start := by
  induction ts generalizing number before with
  | nil => cases h
  | cons t ts ih =>
    rcases List.mem_cons.1 h with rfl | h
    · cases ts with
      | nil => exact ⟨before, [], by simp, rfl⟩
      | cons u ts =>
        exact ⟨before, ['\n'] ++ ['\n'].intercalate (u :: ts),
          by simp [List.intercalate_cons_of_ne_nil], rfl⟩
    · have hlength : Text.byteLength (before ++ t ++ ['\n']) =
          Text.byteLength before + Text.byteLength t + 1 := by
        rw [Text.byteLength_append, Text.byteLength_append]
        rfl
      have hne : ts ≠ [] := by
        rintro rfl
        cases h
      obtain ⟨b, a, heq, hb⟩ := ih (hlength ▸ h)
      refine ⟨b, a, ?_, hb⟩
      rw [List.intercalate_cons_of_ne_nil hne, ← heq]
      simp

theorem mem_of_mem_place {number start : Nat} {ts : List (List Char)} {p : Piece}
    (h : p ∈ place number start ts) : p.text ∈ ts := by
  induction ts generalizing number start with
  | nil => cases h
  | cons t ts ih =>
    rcases List.mem_cons.1 h with rfl | h
    · exact List.mem_cons_self
    · exact List.mem_cons_of_mem _ (ih h)

end Piece

namespace Text

/-- The pieces of a text between its line feeds. -/
def pieces (source : List Char) : List Piece := Piece.place 1 0 (source.splitOn '\n')

theorem not_mem_of_mem_splitOn {s t : List Char} (h : t ∈ s.splitOn '\n') : '\n' ∉ t := by
  induction s generalizing t with
  | nil =>
    rw [List.splitOn_nil, List.mem_singleton] at h
    rw [h]
    exact List.not_mem_nil
  | cons c s ih =>
    rw [List.splitOn_cons_eq_if_modifyHead] at h
    split at h
    · rcases List.mem_cons.1 h with rfl | h
      · exact List.not_mem_nil
      · exact ih h
    · next hc =>
      obtain ⟨u, us, hs⟩ := List.exists_cons_of_ne_nil (List.splitOn_ne_nil '\n' s)
      rw [hs] at h ih
      rcases List.mem_cons.1 h with rfl | h
      · rw [List.mem_cons, not_or]
        exact ⟨fun heq => hc (beq_iff_eq.2 heq.symm), ih List.mem_cons_self⟩
      · exact ih (List.mem_cons_of_mem _ h)

/-- A text without a line feed is one piece. -/
theorem pieces_of_unbroken {s : List Char} (h : '\n' ∉ s) : pieces s = [⟨1, 0, s⟩] := by
  rw [pieces, List.splitOn_eq_singleton h]
  rfl

theorem exists_append_of_mem_pieces {source : List Char} {p : Piece} (h : p ∈ pieces source) :
    ∃ b a, source = b ++ p.text ++ a ∧ byteLength b = p.start := by
  have hbefore : 0 = byteLength [] := byteLength_nil.symm
  unfold pieces at h
  rw [hbefore] at h
  obtain ⟨b, a, heq, hb⟩ := Piece.exists_append_of_mem_place h
  rw [List.nil_append, List.intercalate_splitOn] at heq
  exact ⟨b, a, heq, hb⟩

end Text

namespace Piece

variable (p : Piece)

/-! The trimmed piece stands within the piece, right after the blanks in front. -/

theorem exists_trimmed : ∃ lead trail, Text.Trimmed p.text lead (Text.trim p.text) trail ∧
    p.line.span = ⟨p.start + Text.byteLength lead,
      p.start + Text.byteLength lead + Text.byteLength (Text.trim p.text)⟩ := by
  obtain ⟨trail, htrim⟩ := Text.exists_trimmed p.text
  exact ⟨_, trail, htrim, rfl⟩

theorem span_line_inside :
    p.span.start ≤ p.line.span.start ∧ p.line.span.stop ≤ p.span.stop := by
  obtain ⟨lead, trail, htrim, hline⟩ := p.exists_trimmed
  have hlength : Text.byteLength p.text =
      Text.byteLength lead + Text.byteLength (Text.trim p.text) + Text.byteLength trail := by
    conv_lhs => rw [htrim.eq, Text.byteLength_append, Text.byteLength_append]
  rw [hline, span, hlength]
  dsimp only
  omega

theorem span_line_nonempty (h : p.isSolid = true) : p.line.span.start < p.line.span.stop := by
  have hpositive : 0 < Text.byteLength (Text.trim p.text) := Text.byteLength_pos (p.isSolid_iff.1 h)
  obtain ⟨lead, trail, -, hline⟩ := p.exists_trimmed
  rw [hline]
  exact Nat.lt_add_of_pos_right hpositive

variable {source : List Char}

theorem occurs_text (h : p ∈ Text.pieces source) : Text.Occurs source p.span p.text := by
  obtain ⟨before, after, hsource, hstart⟩ := Text.exists_append_of_mem_pieces h
  rw [span, hsource, ← hstart]
  exact Text.occurs_append before p.text after

theorem occurs_line (h : p ∈ Text.pieces source) :
    Text.Occurs source p.line.span (Text.trim p.text) := by
  obtain ⟨before, after, hsource, hstart⟩ := Text.exists_append_of_mem_pieces h
  obtain ⟨lead, trail, htrim, hline⟩ := p.exists_trimmed
  have hsplit : source = before ++ lead ++ Text.trim p.text ++ (trail ++ after) := by
    conv_lhs => rw [hsource, htrim.eq]
    simp only [List.append_assoc]
  rw [hline, hsplit, ← hstart, ← Text.byteLength_append]
  exact Text.occurs_append (before ++ lead) (Text.trim p.text) (trail ++ after)

end Piece

/-- The pieces of a text that are not blank. -/
def solidPieces (source : List Char) : List Piece := (Text.pieces source).filter Piece.isSolid

section Solid

variable {source : List Char}

/-- Lines that are not blank are in order, and do not meet. -/
theorem pairwise_span_line : (solidPieces source).Pairwise
    fun p q => p.line.span.stop < q.line.span.start := by
  have hpieces : (solidPieces source).Pairwise fun p q => p.span.stop < q.span.start :=
    (Piece.pairwise_place _ _ _).filter _
  refine hpieces.imp fun {p q} h => ?_
  have := p.span_line_inside
  have := q.span_line_inside
  omega

/-- The piece is the line of a text at a span: trimmed, it stands there, and no other line does. -/
structure IsLineAt (source : List Char) (p : Piece) (span : Span) : Prop where
  mem : p ∈ solidPieces source
  span_eq : p.line.span = span
  inside : p.span.start ≤ span.start ∧ span.stop ≤ p.span.stop
  occurs : Text.Occurs source span (Text.trim p.text)
  alone : ∀ q ∈ solidPieces source, q.line.span = span → q = p

theorem isLineAt_of_mem {p : Piece} (h : p ∈ solidPieces source) :
    IsLineAt source p p.line.span where
  mem := h
  span_eq := rfl
  inside := p.span_line_inside
  occurs := p.occurs_line (List.mem_of_mem_filter h)
  alone q hq hspan := by
    have hspans : ((solidPieces source).map fun p => p.line.span).Nodup := by
      refine List.pairwise_map.2 (pairwise_span_line.imp_of_mem fun {p q} hp _ hlt heq => ?_)
      have := p.span_line_nonempty (List.mem_filter.1 hp).2
      rw [heq] at hlt this
      omega
    exact List.inj_on_of_nodup_map hspans hq h hspan

end Solid

/-! ## A cursor's lines -/

namespace Cursor

theorem dropReturn_cases (s : List Char) : dropReturn s = s ∨ s = dropReturn s ++ ['\r'] := by
  unfold dropReturn
  split
  · next h => exact .inr (List.dropLast_append_getLast? '\r' h).symm
  · exact .inl rfl

/-- A carriage return at the end of a line is trimmed like any blank. -/
theorem trim_dropReturn (s : List Char) : Text.trim (dropReturn s) = Text.trim s := by
  rcases dropReturn_cases s with h | h
  · rw [h]
  · conv_rhs => rw [h]
    exact (Text.trim_append_blank _ (by decide)).symm

theorem ofRaw_dropReturn (number index : Nat) {s : List Char} (hs : Text.trim s ≠ []) :
    Line.ofRaw number index (dropReturn s) = Line.ofRaw number index s := by
  have hlead : (dropReturn s).takeWhile Text.isBlank = s.takeWhile Text.isBlank := by
    rcases dropReturn_cases s with h | h
    · rw [h]
    · rw [← trim_dropReturn] at hs
      conv_rhs => rw [h]
      exact (Text.takeWhile_append_blank hs (by decide)).symm
  simp only [Line.ofRaw, hlead, trim_dropReturn]

/-- What consuming a line does: the last line is the whole rest, any other one ends at a line feed. -/
theorem next?_cases {c d : Cursor} {l : Line} (h : c.next? = some (l, d)) :
    ('\n' ∉ c.rest ∧ l = Line.ofRaw c.line c.index c.rest ∧
      d = ⟨c.line + 1, c.index + Text.byteLength c.rest, []⟩) ∨
    ∃ raw after, '\n' ∉ raw ∧ c.rest = raw ++ '\n' :: after ∧
      l = Line.ofRaw c.line c.index (dropReturn raw) ∧
      d = ⟨c.line + 1, c.index + Text.byteLength raw + 1, after⟩ := by
  have hsplit : c.raw ++ c.rest.dropWhile (· != '\n') = c.rest := List.takeWhile_append_dropWhile
  have hraw : '\n' ∉ c.raw := fun hmem => by
    have := List.all_eq_true.1 List.all_takeWhile _ hmem
    simp at this
  unfold next? at h
  split at h
  · cases h
  · split at h
    · next hdrop =>
      rw [hdrop, List.append_nil] at hsplit
      cases h
      rw [hsplit] at hraw ⊢
      exact .inl ⟨hraw, rfl, rfl⟩
    · next x after hdrop =>
      have hx : x = '\n' := by
        have := List.head?_dropWhile_not (· != '\n') c.rest
        rw [hdrop] at this
        simpa using this
      cases h
      rw [hdrop, hx] at hsplit
      exact .inr ⟨c.raw, after, hraw, hsplit.symm, rfl, rfl⟩

theorem next?_eq_none_iff (c : Cursor) : c.next? = none ↔ c.rest = [] := by
  unfold next?
  split
  · next h => simp [h]
  · next h => split <;> simp [h]

theorem lines_of_rest_eq_nil {c : Cursor} (h : c.rest = []) : c.lines = [] := by
  rw [lines]
  split
  · rfl
  · next heq =>
    rw [(next?_eq_none_iff c).2 h] at heq
    cases heq

/-- The lines that are not blank are the solid pieces of the rest. -/
theorem filter_lines (c : Cursor) :
    c.lines.filter (!·.text.isEmpty) =
      ((Piece.place c.line c.index (c.rest.splitOn '\n')).filter Piece.isSolid).map Piece.line := by
  have hfilter (ps : List Piece) : (ps.map Piece.line).filter (!·.text.isEmpty) =
      (ps.filter Piece.isSolid).map Piece.line := by
    rw [List.filter_map]
    simp [Function.comp_def, Piece.isEmpty_text_line]
  rw [← hfilter]
  fun_induction lines c with
  | case1 c h =>
    rw [(next?_eq_none_iff c).1 h]
    rfl
  | case2 c l d h ih =>
    rcases next?_cases h with ⟨hfeed, rfl, rfl⟩ | ⟨raw, after, hfeed, hrest, rfl, rfl⟩
    · rw [List.splitOn_eq_singleton hfeed, lines_of_rest_eq_nil rfl]
      rfl
    · have hplace : (Piece.place c.line c.index (c.rest.splitOn '\n')).map Piece.line =
          Line.ofRaw c.line c.index raw ::
            (Piece.place (c.line + 1) (c.index + Text.byteLength raw + 1)
              (after.splitOn '\n')).map Piece.line := by
        rw [hrest, List.splitOn_append_cons_self_of_not_mem hfeed]
        rfl
      rw [hplace, List.filter_cons, List.filter_cons, ih]
      by_cases hraw : Text.trim raw = []
      · simp [Line.ofRaw, trim_dropReturn, hraw]
      · rw [ofRaw_dropReturn c.line c.index hraw]

/-! ## Where a cursor stands -/

/-- The cursor comes up on a walk through a text. -/
inductive Reached (source : List Char) : Cursor → Prop
  | start : Reached source (ofText source)
  | next {c d : Cursor} {l : Line} (here : Reached source c) (step : c.next? = some (l, d)) :
      Reached source d

/-- All that is cut out of a text to consume a line lies within it, on boundaries of characters: the
rest, the part of it up to the line feed, and the line. -/
structure Safe (source : List Char) (c : Cursor) : Prop where
  rest : Text.Occurs source ⟨c.index, Text.byteLength source⟩ c.rest
  raw : Text.Occurs source ⟨c.index, c.index + Text.byteLength c.raw⟩ c.raw
  line : ∀ l d, c.next? = some (l, d) → ∃ t, l = Line.ofRaw c.line c.index t ∧
    Text.Occurs source ⟨c.index, c.index + Text.byteLength t⟩ t

theorem Reached.exists_append {source : List Char} {c : Cursor} (h : Reached source c) :
    ∃ before, source = before ++ c.rest ∧ Text.byteLength before = c.index := by
  induction h with
  | start => exact ⟨[], rfl, rfl⟩
  | @next c d l _ step ih =>
    obtain ⟨before, hsource, hindex⟩ := ih
    rcases next?_cases step with ⟨-, rfl, rfl⟩ | ⟨raw, after, -, hrest, rfl, rfl⟩
    · refine ⟨before ++ c.rest, by rw [hsource, List.append_nil], ?_⟩
      rw [Text.byteLength_append, hindex]
    · refine ⟨before ++ (raw ++ ['\n']), by rw [hsource, hrest]; simp, ?_⟩
      rw [Text.byteLength_append, Text.byteLength_append, hindex]
      rfl

theorem Reached.safe {source : List Char} {c : Cursor} (h : Reached source c) : c.Safe source := by
  obtain ⟨before, hsource, hindex⟩ := h.exists_append
  have hpart {t after : List Char} (hrest : c.rest = t ++ after) :
      Text.Occurs source ⟨c.index, c.index + Text.byteLength t⟩ t := by
    rw [hsource, hrest, ← hindex, ← List.append_assoc]
    exact Text.occurs_append before t after
  refine ⟨?_, hpart List.takeWhile_append_dropWhile.symm, fun l d step => ?_⟩
  · have hlength : Text.byteLength source = c.index + Text.byteLength c.rest := by
      rw [hsource, Text.byteLength_append, hindex]
    rw [hlength]
    exact hpart (List.append_nil _).symm
  · rcases next?_cases step with ⟨-, hl, -⟩ | ⟨raw, after, -, hrest, hl, -⟩
    · exact ⟨_, hl, hpart (List.append_nil _).symm⟩
    · refine ⟨_, hl, ?_⟩
      rcases dropReturn_cases raw with hraw | hraw
      · exact hpart (hraw.symm ▸ hrest)
      · rw [hraw, List.append_assoc] at hrest
        exact hpart hrest

end Cursor

/-! ## Tokens -/

namespace Token

/-- The token is what a piece of the text says, and its span is where the piece stands without the
blanks on both sides. -/
structure ReadFrom (source : List Char) (t : Spanned (Token Float)) (p : Piece) : Prop where
  piece : Text.Occurs source p.span p.text
  unbroken : '\n' ∉ p.text
  content : ofLine (Text.trim p.text) = .ok t.content
  trimmed : ∃ lead trail, Text.Trimmed p.text lead (Text.trim p.text) trail ∧
    t.span.start = p.span.start + Text.byteLength lead
  occurs : Text.Occurs source t.span (Text.trim p.text)
  nonempty : t.span.start < t.span.stop
  inside : t.span.stop ≤ p.span.stop
  le : t.span.stop ≤ Text.byteLength source

theorem read_eq_ok {l : Line} {t : Spanned (Token Float)} (h : read l = .ok t) :
    ofLine l.text = .ok t.content ∧ t.span = l.span := by
  unfold read at h
  split at h
  · next hline =>
    cases h
    exact ⟨hline, rfl⟩
  · cases h

theorem mapM_eq_ok_iff {ε β γ : Type} (f : β → Except ε γ) (xs : List β) (ys : List γ) :
    xs.mapM f = .ok ys ↔ List.Forall₂ (fun x y => f x = .ok y) xs ys := by
  induction xs generalizing ys with
  | nil => cases ys <;> simp [pure, Except.pure]
  | cons x xs ih =>
    rw [List.mapM_cons]
    cases hx : f x with
    | error e => cases ys <;> simp [bind, Except.bind, hx]
    | ok y =>
      cases hxs : xs.mapM f with
      | error e => cases ys <;> simp [bind, Except.bind, hx, ← ih, hxs]
      | ok zs => cases ys <;> simp [bind, Except.bind, pure, Except.pure, hx, ← ih, hxs]

/-- The first failure is that of the whole. -/
theorem exists_of_mapM_eq_error {ε β γ : Type} {f : β → Except ε γ} {xs : List β} {e : ε}
    (h : xs.mapM f = .error e) :
    ∃ before x, before ++ [x] <+: xs ∧ f x = .error e ∧ ∀ y ∈ before, ∃ z, f y = .ok z := by
  induction xs with
  | nil => cases h
  | cons x xs ih =>
    rw [List.mapM_cons] at h
    cases hx : f x with
    | error e' =>
      rw [hx] at h
      cases h
      exact ⟨[], x, ⟨xs, rfl⟩, hx, by simp⟩
    | ok z =>
      have hxs : xs.mapM f = .error e := by
        rw [hx] at h
        cases hxs : xs.mapM f with
        | error e' =>
          rw [hxs] at h
          cases h
          rfl
        | ok zs =>
          rw [hxs] at h
          cases h
      obtain ⟨before, y, hupTo, hy, hbefore⟩ := ih hxs
      refine ⟨x :: before, y, List.prefix_cons_inj x |>.2 hupTo, hy, ?_⟩
      exact List.forall_mem_cons.2 ⟨⟨z, hx⟩, hbefore⟩

theorem readFrom_of_read {source : List Char} {p : Piece} (hp : p ∈ Text.pieces source)
    (hsolid : p.isSolid = true) {t : Spanned (Token Float)} (h : read p.line = .ok t) :
    ReadFrom source t p := by
  obtain ⟨hcontent, hspan⟩ := read_eq_ok h
  obtain ⟨lead, trail, htrim, hline⟩ := p.exists_trimmed
  have htext : Text.Occurs source t.span (Text.trim p.text) := hspan ▸ p.occurs_line hp
  refine ⟨p.occurs_text hp, ?_, hcontent, ⟨lead, trail, htrim, ?_⟩, htext, ?_, ?_, htext.stop.le⟩
  · exact Text.not_mem_of_mem_splitOn (Piece.mem_of_mem_place hp)
  · rw [hspan, hline]
    rfl
  · rw [hspan]
    exact p.span_line_nonempty hsolid
  · rw [hspan]
    exact p.span_line_inside.2

theorem scan_eq_mapM (source : List Char) :
    scan source = (solidPieces source).mapM fun p => read p.line := by
  rw [scan, Cursor.filter_lines, List.mapM_map]
  rfl

/-- The error is that of the line `p`, the first one that is malformed, after the lines `before`. -/
structure Malformed (source : List Char) (e : Spanned LexError) (before : List Piece) (p : Piece) :
    Prop where
  upTo : before ++ [p] <+: solidPieces source
  line : IsLineAt source p e.span
  number : e.content.line = p.number
  fault : ofLine (Text.trim p.text) = .error e.content.fault
  earlier : ∀ q ∈ before, ∃ t, ofLine (Text.trim q.text) = .ok t

theorem exists_malformed {source : List Char} {e : Spanned LexError} (h : scan source = .error e) :
    ∃ before p, Malformed source e before p := by
  rw [scan_eq_mapM] at h
  obtain ⟨before, p, hupTo, hread, hbefore⟩ := exists_of_mapM_eq_error h
  have hp : p ∈ solidPieces source := hupTo.subset (by simp)
  unfold read at hread
  split at hread
  · cases hread
  · next fault hfault =>
    cases hread
    refine ⟨before, p, hupTo, isLineAt_of_mem hp, rfl, hfault, fun q hq => ?_⟩
    obtain ⟨t, ht⟩ := hbefore q hq
    exact ⟨_, (read_eq_ok ht).1⟩

section Scanned

variable {source : List Char} {ts : List (Spanned (Token Float))} (h : scan source = .ok ts)

include h

theorem forall₂_readFrom : List.Forall₂ (ReadFrom source) ts (solidPieces source) := by
  rw [scan_eq_mapM, mapM_eq_ok_iff] at h
  refine (List.forall₂_iff_get.2 ⟨h.length_eq, fun i hp ht => ?_⟩).flip
  have hmem := List.mem_filter.1 (List.getElem_mem hp)
  exact readFrom_of_read hmem.1 hmem.2 (h.get hp ht)

theorem map_span : ts.map Spanned.span = (solidPieces source).map fun p => p.line.span := by
  rw [scan_eq_mapM, mapM_eq_ok_iff] at h
  have hspans : List.Forall₂ (fun (t : Spanned (Token Float)) p => t.span = p.line.span) ts
      (solidPieces source) := (h.imp fun p t hread => (read_eq_ok hread).2).flip
  rw [← List.forall₂_eq_eq_eq]
  exact List.forall₂_map_left_iff.2 (List.forall₂_map_right_iff.2 hspans)

/-- The spans of tokens are in order and do not meet. -/
theorem pairwise_span : ts.Pairwise fun t u => t.span.stop < u.span.start := by
  have hspans : (ts.map Spanned.span).Pairwise fun a b => a.stop < b.start := by
    rw [map_span h, List.pairwise_map]
    exact pairwise_span_line
  exact List.pairwise_map.1 hspans

/-- Each token is what some line says. -/
theorem exists_read_eq {t : Spanned (Token Float)} (ht : t ∈ ts) :
    ∃ p ∈ solidPieces source, read p.line = .ok t := by
  rw [scan_eq_mapM, mapM_eq_ok_iff] at h
  obtain ⟨i, hi, rfl⟩ := List.mem_iff_getElem.1 ht
  have hp : i < (solidPieces source).length := h.length_eq ▸ hi
  exact ⟨_, List.getElem_mem hp, h.get hp hi⟩

/-- Each token is read from the line at its span. -/
theorem exists_isLineAt {t : Spanned (Token Float)} (ht : t ∈ ts) :
    ∃ p, IsLineAt source p t.span ∧ ReadFrom source t p := by
  obtain ⟨p, hp, hread⟩ := exists_read_eq h ht
  obtain ⟨hmem, hsolid⟩ := List.mem_filter.1 hp
  refine ⟨p, ?_, readFrom_of_read hmem hsolid hread⟩
  rw [(read_eq_ok hread).2]
  exact isLineAt_of_mem hp

end Scanned

/-- The tokens of a text are read from its pieces that are not blank, one from each in order.  The span
of a token holds the trimmed piece, and spans do not meet.  No cut on the way leaves the text or goes
through a character. -/
theorem scan_forall₂_pieces {source : List Char} {ts : List (Spanned (Token Float))}
    (h : scan source = .ok ts) :
    List.Forall₂ (ReadFrom source) ts ((Text.pieces source).filter Piece.isSolid) ∧
      ts.Pairwise (fun t u => t.span.stop < u.span.start) ∧
      ∀ c, Cursor.Reached source c → c.Safe source :=
  ⟨forall₂_readFrom h, pairwise_span h, fun _ hc => hc.safe⟩

/-- A title between blanks, the first of them of three bytes, then a blank line, and a last line
without a line feed. -/
theorem scan_forall₂_pieces_of_title :
    scan "\u3000#TITLE é \r\n \nx".toList =
        .ok [⟨.title "é", ⟨3, 12⟩⟩, ⟨.remark "x", ⟨17, 18⟩⟩] ∧
      ∃ p q, (Text.pieces "\u3000#TITLE é \r\n \nx".toList).filter Piece.isSolid = [p, q] ∧
        ReadFrom "\u3000#TITLE é \r\n \nx".toList ⟨.title "é", ⟨3, 12⟩⟩ p ∧
        ReadFrom "\u3000#TITLE é \r\n \nx".toList ⟨.remark "x", ⟨17, 18⟩⟩ q := by
  have h : scan "\u3000#TITLE é \r\n \nx".toList =
      .ok [⟨.title "é", ⟨3, 12⟩⟩, ⟨.remark "x", ⟨17, 18⟩⟩] := by
    cbv
  obtain ⟨htokens, -, -⟩ := scan_forall₂_pieces h
  obtain ⟨p, _, hp, hrest, heq⟩ := List.forall₂_cons_left_iff.1 htokens
  obtain ⟨q, _, hq, hnil, rfl⟩ := List.forall₂_cons_left_iff.1 hrest
  cases hnil
  exact ⟨h, p, q, heq, hp, hq⟩

end Token

end RhythmChart
