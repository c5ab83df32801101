import RhythmChart.Proofs.Coupling
import RhythmChart.Proofs.Source.Grammar

/-!
# Texts joined by a line feed

Each line is read on its own, so to read two texts that a line feed joins is to read the first one and then
the second one, whose places count from behind the line feed (`Token.scan_append`).  It follows which error a
text has: that of its first malformed line, with the number and the place of this line
(`Token.scan_joined`).
-/

namespace RhythmChart

open Text

/-! ## Places further down -/

/-- The value, that many bytes later. -/
def Spanned.shift {α : Type} (x : Spanned α) (bytes : Nat) : Spanned α := ⟨x.content, x.span.shift bytes⟩

/-- The error, that many lines and bytes further down. -/
def Spanned.down (e : Spanned LexError) (lines bytes : Nat) : Spanned LexError :=
  ⟨⟨e.content.line + lines, e.content.fault⟩, e.span.shift bytes⟩

theorem Line.span_ofRaw_add (number index number' bytes : Nat) (raw : List Char) :
    (Line.ofRaw number (index + bytes) raw).span = (Line.ofRaw number' index raw).span.shift bytes := by
  simp only [Line.ofRaw, Span.shift, Span.mk.injEq]
  omega

namespace Piece

/-- The piece, that many lines and bytes later. -/
def shift (p : Piece) (lines bytes : Nat) : Piece := ⟨p.number + lines, p.start + bytes, p.text⟩

theorem place_add (number start lines bytes : Nat) (ts : List (List Char)) :
    place (number + lines) (start + bytes) ts = (place number start ts).map (shift · lines bytes) := by
  induction ts generalizing number start with
  | nil => rfl
  | cons t ts ih =>
    have hnumber : number + lines + 1 = number + 1 + lines := by omega
    have hstart : start + bytes + byteLength t + 1 = start + byteLength t + 1 + bytes := by omega
    rw [place, place, List.map_cons, hnumber, hstart, ih]
    rfl

/-- After some parts of a text the next ones begin behind one more line feed. -/
theorem place_append (number start : Nat) {ts : List (List Char)} (hts : ts ≠ []) (us : List (List Char)) :
    place number start (ts ++ us) = place number start ts ++
      place (number + ts.length) (start + byteLength (['\n'].intercalate ts) + 1) us := by
  induction ts generalizing number start with
  | nil => exact absurd rfl hts
  | cons t ts ih =>
    rw [List.cons_append, place, place, List.cons_append]
    congr 1
    by_cases hnil : ts = []
    · rw [hnil, List.intercalate_singleton]
      rfl
    · have hnumber : number + 1 + ts.length = number + (t :: ts).length := by
        rw [List.length_cons]
        omega
      have hstart : start + byteLength t + 1 + byteLength (['\n'].intercalate ts) + 1 =
          start + byteLength (['\n'].intercalate (t :: ts)) + 1 := by
        rw [List.intercalate_cons_of_ne_nil hnil, byteLength_append, byteLength_append]
        change _ = start + (byteLength t + 1 + byteLength (['\n'].intercalate ts)) + 1
        omega
      rw [ih _ _ hnil, hnumber, hstart]

end Piece

namespace Text

theorem length_splitOn (s : List Char) : (s.splitOn '\n').length = s.count '\n' + 1 := by
  induction s with
  | nil => rfl
  | cons c s ih =>
    rw [List.splitOn_cons_eq_if_modifyHead, List.count_cons]
    split
    · rw [List.length_cons, ih]
    · rw [List.length_modifyHead, ih, Nat.add_zero]

/-- The pieces of joined texts are those of the first and, further down, those of the second. -/
theorem pieces_append (a b : List Char) : pieces (a ++ '\n' :: b) =
    pieces a ++ (pieces b).map (Piece.shift · (a.count '\n' + 1) (byteLength a + 1)) := by
  have hnumber : 1 + (a.splitOn '\n').length = 1 + (a.count '\n' + 1) := by rw [length_splitOn]
  have hstart : 0 + byteLength (['\n'].intercalate (a.splitOn '\n')) + 1 = 0 + (byteLength a + 1) := by
    rw [List.intercalate_splitOn, Nat.add_assoc]
  rw [pieces, List.splitOn_append_cons_self, Piece.place_append 1 0 (List.splitOn_ne_nil _ _), hnumber, hstart,
    Piece.place_add]
  rfl

end Text

theorem solidPieces_append (a b : List Char) : solidPieces (a ++ '\n' :: b) =
    solidPieces a ++ (solidPieces b).map (Piece.shift · (a.count '\n' + 1) (byteLength a + 1)) := by
  rw [solidPieces, pieces_append, List.filter_append, List.filter_map]
  rfl

/-! ## Reading joined texts -/

namespace Token

theorem read_shift (p : Piece) (lines bytes : Nat) :
    ExceptRel (fun e e' => e.down lines bytes = e') (fun t t' => t.shift bytes = t') (read p.line)
      (read (p.shift lines bytes).line) := by
  have hspan : (p.shift lines bytes).line.span = p.line.span.shift bytes := Line.span_ofRaw_add ..
  have htext : (p.shift lines bytes).line.text = p.line.text := rfl
  have hnumber : (p.shift lines bytes).line.number = p.line.number + lines := rfl
  rw [read, read, hspan, htext, hnumber]
  cases ofLine p.line.text with
  | error fault => exact .error rfl
  | ok t => exact .ok rfl

/-- Further down the same lines have the same tokens and the same error. -/
theorem mapM_read_shift (ps : List Piece) (lines bytes : Nat) :
    ((ps.map (Piece.shift · lines bytes)).mapM fun p => read p.line) =
      match ps.mapM fun p => read p.line with
      | .error e => .error (e.down lines bytes)
      | .ok ts => .ok (ts.map (Spanned.shift · bytes)) := by
  have hshift : List.Forall₂ (fun p p' => p.shift lines bytes = p') ps
      (ps.map (Piece.shift · lines bytes)) := List.forall₂_map_right_iff.2 (List.forall₂_same.2 fun _ _ => rfl)
  have hread : ExceptRel (fun e e' => e.down lines bytes = e')
      (List.Forall₂ fun t t' => t.shift bytes = t') (ps.mapM fun p => read p.line)
      ((ps.map (Piece.shift · lines bytes)).mapM fun p => read p.line) :=
    ExceptRel.mapM (fun p p' hp => hp ▸ read_shift p lines bytes) hshift
  generalize (ps.mapM fun p => read p.line) = result at hread ⊢
  generalize ((ps.map (Piece.shift · lines bytes)).mapM fun p => read p.line) = result' at hread ⊢
  cases hread with
  | error he => exact congrArg Except.error he.symm
  | ok hts =>
    rw [← List.forall₂_map_left_iff, List.forall₂_eq_eq_eq] at hts
    exact congrArg Except.ok hts.symm

/-- Joined texts are read one after the other. -/
theorem scan_append (a b : List Char) : scan (a ++ '\n' :: b) =
    match scan a, scan b with
    | .error e, _ => .error e
    | .ok _, .error e => .error (e.down (a.count '\n' + 1) (byteLength a + 1))
    | .ok ts, .ok us => .ok (ts ++ us.map (Spanned.shift · (byteLength a + 1))) := by
  rw [scan_eq_mapM, scan_eq_mapM, scan_eq_mapM, solidPieces_append, List.mapM_append, mapM_read_shift]
  generalize ((solidPieces a).mapM fun p => read p.line) = result
  generalize ((solidPieces b).mapM fun p => read p.line) = result'
  cases result with
  | error e => rfl
  | ok ts => cases result' <;> rfl

/-! ## The first malformed line -/

/-- The error is that of the first malformed line: no line before it is malformed, its number counts the line
feeds before it, and its place is where the trimmed line stands. -/
inductive FirstMalformed (source : List Char) (e : Spanned LexError) : Prop
  | mk (before line after : List Char) (eq : source = before ++ (line ++ after))
      (begins : before = [] ∨ before.getLast? = some '\n') (unbroken : '\n' ∉ line)
      (ends : after = [] ∨ after.head? = some '\n')
      (earlier : ∀ l ∈ before.splitOn '\n', ∃ t, ofLine (trim l) = .ok t)
      (fault : ofLine (trim line) = .error e.content.fault) (number : e.content.line = before.count '\n' + 1)
      (span : e.span = (Line.ofRaw e.content.line (byteLength before) line).span)

/-- A text without a line feed is one line. -/
theorem scan_eq_error_iff_of_unbroken {line : List Char} (h : '\n' ∉ line) {e : Spanned LexError} :
    scan line = .error e ↔ e.span = (Line.ofRaw 1 0 line).span ∧ e.content.line = 1 ∧
      ofLine (trim line) = .error e.content.fault := by
  rw [scan_eq_mapM, solidPieces, pieces_of_unbroken h]
  cases hsolid : Piece.isSolid ⟨1, 0, line⟩ with
  | false =>
    have htrim : trim line = [] := not_not.1 (mt (Piece.isSolid_iff ⟨1, 0, line⟩).2 (by simp [hsolid]))
    rw [List.filter_cons_of_neg (by simp [hsolid]), htrim]
    exact iff_of_false nofun nofun
  | true =>
    rw [List.filter_cons_of_pos hsolid, List.filter_nil, List.mapM_cons, List.mapM_nil]
    refine Iff.trans ?_ (read_eq_error_iff (l := Line.ofRaw 1 0 line))
    change (read (Line.ofRaw 1 0 line) >>= fun t => _) = _ ↔ _
    cases read (Line.ofRaw 1 0 line) with
    | error e' => exact Iff.of_eq ((Except.error.injEq e' e).trans (Except.error.injEq e' e).symm)
    | ok t => exact iff_of_false nofun nofun

namespace FirstMalformed

variable {a b : List Char} {e : Spanned LexError}

theorem of_unbroken {line after : List Char} (h : '\n' ∉ line) (ends : after = [] ∨ after.head? = some '\n')
    (herror : scan line = .error e) : FirstMalformed (line ++ after) e := by
  obtain ⟨span, number, fault⟩ := (scan_eq_error_iff_of_unbroken h).1 herror
  refine .mk [] line after rfl (.inl rfl) h ends (fun l hl => ?_) fault number ?_
  · rw [List.splitOn_nil, List.mem_singleton] at hl
    exact hl ▸ ⟨_, rfl⟩
  · rw [span, number]
    rfl

/-- Behind lines that are not malformed the first malformed line stays the first. -/
theorem append (h : FirstMalformed b e) (hlines : ∀ l ∈ a.splitOn '\n', ∃ t, ofLine (trim l) = .ok t) :
    FirstMalformed (a ++ '\n' :: b) (e.down (a.count '\n' + 1) (byteLength a + 1)) := by
  obtain ⟨before, line, after, rfl, begins, unbroken, ends, earlier, fault, number, span⟩ := h
  refine .mk (a ++ '\n' :: before) line after (by simp) ?_ unbroken ends (fun l hl => ?_) fault ?_ ?_
  · right
    rcases begins with rfl | hlast
    · exact List.getLast?_concat
    · rw [List.getLast?_append, List.getLast?_cons, hlast]
      rfl
  · rw [List.splitOn_append_cons_self, List.mem_append] at hl
    exact hl.elim (hlines l) (earlier l)
  · change e.content.line + (a.count '\n' + 1) = _
    rw [number, List.count_append, List.count_cons_self]
    omega
  · have hlength : byteLength (a ++ '\n' :: before) = byteLength before + (byteLength a + 1) := by
      rw [byteLength_append, byteLength_cons]
      change byteLength a + (1 + byteLength before) = _
      omega
    rw [hlength, Line.span_ofRaw_add _ _ e.content.line, ← span]
    rfl

end FirstMalformed

theorem firstMalformed_of_scan {source : List Char} {e : Spanned LexError} (h : scan source = .error e) :
    FirstMalformed source e := by
  -- The induction takes one line after the other off the text.
  induction hlength : source.length using Nat.strong_induction_on generalizing source e with
  | _ n ih =>
    by_cases hfeed : '\n' ∈ source
    · obtain ⟨a, b, rfl, ha⟩ := List.eq_append_cons_of_mem hfeed
      rw [scan_append] at h
      cases hscan : scan a with
      | error e' =>
        rw [hscan] at h
        cases h
        exact .of_unbroken ha (.inr rfl) hscan
      | ok ts =>
        rw [hscan] at h
        cases hscan' : scan b with
        | ok us =>
          rw [hscan'] at h
          cases h
        | error e' =>
          rw [hscan'] at h
          cases h
          have hlt : b.length < n := by
            rw [← hlength, List.length_append, List.length_cons]
            omega
          refine (ih _ hlt hscan' rfl).append fun l hl => ?_
          rw [List.splitOn_eq_singleton ha, List.mem_singleton] at hl
          subst hl
          cases hline : ofLine (trim l) with
          | ok t => exact ⟨t, rfl⟩
          | error fault =>
            have herror : scan l = .error ⟨⟨1, fault⟩, (Line.ofRaw 1 0 l).span⟩ :=
              (scan_eq_error_iff_of_unbroken ha).2 ⟨rfl, rfl, hline⟩
            rw [hscan] at herror
            cases herror
    · have herror := FirstMalformed.of_unbroken hfeed (.inl rfl) h
      rwa [List.append_nil] at herror

/-- A text is read if none of its lines is malformed. -/
theorem exists_scan_eq_ok {source : List Char}
    (h : ∀ l ∈ source.splitOn '\n', ∃ t, ofLine (trim l) = .ok t) : ∃ ts, scan source = .ok ts := by
  cases hscan : scan source with
  | ok ts => exact ⟨ts, rfl⟩
  | error e =>
    obtain ⟨before, line, after, rfl, begins, unbroken, ends, -, fault, -, -⟩ := firstMalformed_of_scan hscan
    have hline : line ∈ (line ++ after).splitOn '\n' := by
      rcases ends with rfl | hfeed
      · rw [List.append_nil, List.splitOn_eq_singleton unbroken]
        exact List.mem_singleton_self _
      · obtain ⟨rest, rfl⟩ := List.head?_eq_some_iff.1 hfeed
        rw [List.splitOn_append_cons_self_of_not_mem unbroken]
        exact List.mem_cons_self
    have hmem : line ∈ (before ++ (line ++ after)).splitOn '\n' := by
      rcases begins with rfl | hlast
      · exact hline
      · obtain ⟨a, rfl⟩ := List.getLast?_eq_some_iff.1 hlast
        rw [List.append_assoc, List.singleton_append, List.splitOn_append_cons_self]
        exact List.mem_append_right _ hline
    obtain ⟨t, ht⟩ := h line hmem
    rw [ht] at fault
    cases fault

theorem scan_of_firstMalformed {source : List Char} {e : Spanned LexError} (h : FirstMalformed source e) :
    scan source = .error e := by
  obtain ⟨before, line, after, rfl, begins, unbroken, ends, earlier, fault, number, span⟩ := h
  -- What comes before is read; the rest of the text begins with the malformed line.
  have hrest : scan (line ++ after) = .error ⟨⟨1, e.content.fault⟩, (Line.ofRaw 1 0 line).span⟩ := by
    have hline : scan line = .error ⟨⟨1, e.content.fault⟩, (Line.ofRaw 1 0 line).span⟩ :=
      (scan_eq_error_iff_of_unbroken unbroken).2 ⟨rfl, rfl, fault⟩
    rcases ends with rfl | hfeed
    · rwa [List.append_nil]
    · obtain ⟨rest, rfl⟩ := List.head?_eq_some_iff.1 hfeed
      rw [scan_append, hline]
  rcases begins with rfl | hlast
  · obtain ⟨⟨number', fault'⟩, span'⟩ := e
    obtain rfl : number' = 1 := number
    obtain rfl : span' = (Line.ofRaw 1 0 line).span := span
    exact hrest
  · obtain ⟨a, rfl⟩ := List.getLast?_eq_some_iff.1 hlast
    have hlines (l : List Char) (hl : l ∈ a.splitOn '\n') : ∃ t, ofLine (trim l) = .ok t := by
      apply earlier l
      rw [List.splitOn_append_cons_self]
      exact List.mem_append_left _ hl
    obtain ⟨ts, hscan⟩ := exists_scan_eq_ok hlines
    have hnumber : 1 + (a.count '\n' + 1) = e.content.line := by
      rw [number, List.count_append, List.count_singleton_self, Nat.add_comm]
    have hspan : (Line.ofRaw 1 0 line).span.shift (byteLength a + 1) = e.span := by
      have hbytes : byteLength (a ++ ['\n']) = 0 + (byteLength a + 1) := by
        rw [byteLength_append, Nat.zero_add]
        rfl
      rw [span, hbytes, Line.span_ofRaw_add _ _ 1]
    rw [List.append_assoc, List.singleton_append, scan_append, hscan, hrest]
    change Except.error (⟨⟨1 + (a.count '\n' + 1), e.content.fault⟩,
      (Line.ofRaw 1 0 line).span.shift (byteLength a + 1)⟩ : Spanned LexError) = _
    rw [hnumber, hspan]

/-- Two texts that a line feed joins are read one after the other: the error of the first one, else that of
the second one further down, else the tokens of both.  So the error of a text is that of its first malformed
line. -/
theorem scan_joined (a b : List Char) :
    scan (a ++ '\n' :: b) =
        (match scan a, scan b with
        | .error e, _ => .error e
        | .ok _, .error e => .error (e.down (a.count '\n' + 1) (byteLength a + 1))
        | .ok ts, .ok us => .ok (ts ++ us.map (Spanned.shift · (byteLength a + 1)))) ∧
      ∀ source e, scan source = .error e ↔ FirstMalformed source e :=
  ⟨scan_append a b, fun _ _ => ⟨firstMalformed_of_scan, scan_of_firstMalformed⟩⟩

-- The second line is blank, the third one is malformed, and so is the last one.
example : scan "x\r\n\n#BPM!1:9\n#BPM01:".toList = .error ⟨⟨3, .notAnId "!1"⟩, ⟨4, 12⟩⟩ := by cbv

end Token

end RhythmChart
