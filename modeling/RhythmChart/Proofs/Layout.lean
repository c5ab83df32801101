import RhythmChart.Proofs.Relocation
import RhythmChart.Proofs.Source.Lines

/-!
# The layout of a text

Of a text the trimmed lines count that are not blank (`Text.solidLines`).  Line ends, indentation and blank
lines only tell where these lines stand.  Texts with the same such lines come to the same, with places that
select the same line (`read_of_solidLines_eq`).
-/

namespace RhythmChart

open Token

/-- The trimmed lines of a text that are not blank: its pieces between line feeds, without the blanks on both
sides. -/
def Text.solidLines (source : List Char) : List (List Char) :=
  ((source.splitOn '\n').map trim).filter (!·.isEmpty)

theorem Piece.map_text_place (number start : Nat) (ts : List (List Char)) :
    (place number start ts).map Piece.text = ts := by
  induction ts generalizing number start with
  | nil => rfl
  | cons t ts ih => rw [place, List.map_cons, ih]

theorem Text.solidLines_eq (source : List Char) :
    solidLines source = (solidPieces source).map fun p => trim p.text := by
  have hsplit : source.splitOn '\n' = (pieces source).map Piece.text :=
    (Piece.map_text_place 1 0 _).symm
  have hsolid (p : Piece) : (!(trim p.text).isEmpty) = p.isSolid := by
    rw [Bool.eq_iff_iff, p.isSolid_iff]
    simp
  rw [solidLines, hsplit, List.map_map, List.filter_map, solidPieces]
  simp only [Function.comp_def, hsolid]

/-! ## Places on the same line -/

/-- The span selects the line with this index, of the lines that are not blank: it is where the trimmed line
stands in the text. -/
def SelectsLine (source : List Char) (i : Nat) (span : Span) : Prop :=
  ∃ p, (solidPieces source)[i]? = some p ∧ IsLineAt source p span

/-- The spans select the lines with the same index. -/
def SelectSameLine (source source' : List Char) (span span' : Span) : Prop :=
  ∃ i, SelectsLine source i span ∧ SelectsLine source' i span'

section Pieces

variable {source source' : List Char} (h : Text.solidLines source = Text.solidLines source')

include h

/-- Piece by piece the trimmed texts are the same. -/
theorem forall₂_solidPieces : List.Forall₂
    (fun p p' => p.line.text = p'.line.text ∧ SelectSameLine source source' p.line.span p'.line.span)
    (solidPieces source) (solidPieces source') := by
  rw [Text.solidLines_eq, Text.solidLines_eq] at h
  rw [List.forall₂_iff_get]
  refine ⟨by simpa using congrArg List.length h, fun i hi hi' => ⟨?_, i, ?_, ?_⟩⟩
  · have htext := congrArg (·[i]?) h
    simp only [List.getElem?_map, List.getElem?_eq_getElem hi, List.getElem?_eq_getElem hi'] at htext
    exact Option.some.inj htext
  · exact ⟨_, List.getElem?_eq_getElem hi, isLineAt_of_mem (List.getElem_mem hi)⟩
  · exact ⟨_, List.getElem?_eq_getElem hi', isLineAt_of_mem (List.getElem_mem hi')⟩

end Pieces

/-! ## Reading -/

/-- The same fault, at places that correspond.  The numbers of the lines may differ. -/
structure LexError.Moved (R : Span → Span → Prop) (e e' : Spanned LexError) : Prop where
  fault : e.content.fault = e'.content.fault
  span : R e.span e'.span

theorem Token.read_moved {R : Span → Span → Prop} {l l' : Line} (htext : l.text = l'.text)
    (hspan : R l.span l'.span) : ExceptRel (LexError.Moved R) (Spanned.Moved R) (read l) (read l') := by
  unfold read
  rw [← htext]
  cases ofLine l.text with
  | error fault => exact .error ⟨rfl, hspan⟩
  | ok t => exact .ok ⟨rfl, hspan⟩

/-- The texts have the same tokens, or the same line is malformed. -/
theorem Token.scan_moved {source source' : List Char}
    (h : Text.solidLines source = Text.solidLines source') :
    ExceptRel (LexError.Moved (SelectSameLine source source'))
      (List.Forall₂ (Spanned.Moved (SelectSameLine source source'))) (scan source) (scan source') := by
  rw [scan_eq_mapM, scan_eq_mapM]
  exact ExceptRel.mapM (fun p p' hp => read_moved hp.1 hp.2) (forall₂_solidPieces h)

namespace Chart

/-- Two texts come to the same, at places that correspond. -/
inductive SameUpToLayout (R : Span → Span → Prop) :
    Except ChartError (Chart Float) → Except ChartError (Chart Float) → Prop
  | ok {chart chart' : Chart Float} (h : Moved R chart chart') : SameUpToLayout R (.ok chart) (.ok chart')
  | lex {e e' : Spanned LexError} (h : LexError.Moved R e e') :
      SameUpToLayout R (.error (.lex e)) (.error (.lex e'))
  | parse {e e' : Spanned ParseError} (h : ParseError.Moved R e e') :
      SameUpToLayout R (.error (.parse e)) (.error (.parse e'))

/-- Texts with the same lines, blank ones apart and up to blanks around them, are read with the same calls of
the prompter, and come to the same song or to the same error, with places that select the same line. -/
theorem read_of_solidLines_eq (prompter : Prompter Float) {source source' : List Char}
    (h : Text.solidLines source = Text.solidLines source') :
    (read prompter source).prompts = (read prompter source').prompts ∧
      SameUpToLayout (SelectSameLine source source') (read prompter source).result
        (read prompter source').result := by
  have hscan := scan_moved h
  unfold read
  generalize scan source = tokens at *
  generalize scan source' = tokens' at *
  cases hscan with
  | error he => exact ⟨rfl, .lex he⟩
  | @ok ts ts' hts =>
    obtain ⟨hprompts, hresult⟩ := ofTokens_moved prompter hts
    refine ⟨hprompts, ?_⟩
    dsimp only
    generalize (ofTokens prompter ts).result = result at *
    generalize (ofTokens prompter ts').result = result' at *
    cases hresult with
    | error he => exact .parse he
    | ok hchart => exact .ok hchart

/-- Line feeds alone, or carriage returns, indentation and blank lines.  The third line starts a slide that is
not closed. -/
theorem read_of_solidLines_eq_of_indented :
    Text.solidLines "#BPM01:90\n#00008:01\n#0003a0:12".toList =
        Text.solidLines "\r\n  #BPM01:90\r\n\t#00008:01 \r\n\r\n#0003a0:12\r\n".toList ∧
      SameUpToLayout
        (SelectSameLine "#BPM01:90\n#00008:01\n#0003a0:12".toList
          "\r\n  #BPM01:90\r\n\t#00008:01 \r\n\r\n#0003a0:12\r\n".toList)
        (read (Prompter.always .halt) "#BPM01:90\n#00008:01\n#0003a0:12".toList).result
        (read (Prompter.always .halt)
          "\r\n  #BPM01:90\r\n\t#00008:01 \r\n\r\n#0003a0:12\r\n".toList).result := by
  have h : Text.solidLines "#BPM01:90\n#00008:01\n#0003a0:12".toList =
      Text.solidLines "\r\n  #BPM01:90\r\n\t#00008:01 \r\n\r\n#0003a0:12\r\n".toList := by decide
  exact ⟨h, (read_of_solidLines_eq (Prompter.always .halt) h).2⟩

end Chart

end RhythmChart
