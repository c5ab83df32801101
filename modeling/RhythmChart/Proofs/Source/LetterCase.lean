import RhythmChart.Proofs.Source.Lines
import RhythmChart.Proofs.Text.LetterCase

/-!
# Lines up to letter case

A line in upper case says the same as the line itself, with its texts in upper case (`ofLine_upper`), or is
malformed for the same cause.  A text in upper case has the same lines at the same places, so `scan_upper`
says this of all tokens of a text.
-/

namespace RhythmChart

open Text

/-! ## Results in upper case -/

/-- The string in upper case. -/
def Text.capitals (s : String) : String := String.ofList (upper s.toList)

theorem Text.capitals_ofList (s : List Char) : capitals (String.ofList s) = String.ofList (upper s) := by
  rw [capitals, String.toList_ofList]

def Channel.upper : Channel → Channel
  | .unsupported kind => .unsupported kind.toUpper
  | channel => channel

/-- The token with all its texts in upper case. -/
def Token.upper {α : Type} [Scalar α] : Token α → Token α
  | .artist text => .artist (capitals text)
  | .designer text => .designer (capitals text)
  | .title text => .title (capitals text)
  | .message track channel payload => .message track channel.upper (capitals payload)
  | .header name args => .header (capitals name) (capitals args)
  | .remark text => .remark (capitals text)
  | token => token

/-- The fault with the text that it quotes in upper case. -/
def LineFault.upper : LineFault → LineFault
  | .notAnId text => .notAnId (capitals text)
  | fault => fault

def LexError.upper (e : LexError) : LexError := { e with fault := e.fault.upper }

def Line.upper (l : Line) : Line := { l with text := Text.upper l.text }

def Piece.upper (p : Piece) : Piece := { p with text := Text.upper p.text }

/-! ## Commands -/

theorem BpmId.ofText?_upper (s : List Char) : ofText? (upper s) = ofText? s := by
  rcases s with _ | ⟨a, _ | ⟨b, _ | ⟨c, s⟩⟩⟩
  · rfl
  · rfl
  · change (do return ofDigits (← Digit.ofChar? a.toUpper) (← Digit.ofChar? b.toUpper)) = _
    rw [Digit.ofChar?_toUpper, Digit.ofChar?_toUpper]
    rfl
  · rfl

namespace Channel

theorem ofText?_of_ne {c : Char} (h0 : c ≠ '0') (h1 : c ≠ '1') (h3 : c ≠ '3') (s : List Char) :
    ofText? (c :: s) = if c.isAlphanum then some (.unsupported c) else none := by
  unfold ofText?
  split
  · next heq => cases heq
  · next heq =>
    cases heq
    exact absurd rfl h0
  · next heq =>
    cases heq
    exact absurd rfl h1
  · next heq =>
    cases heq
    exact absurd rfl h3
  · next heq =>
    cases heq
    rfl

theorem ofText?_zero (s : List Char) : ofText? ('0' :: s) =
    if s = ['2'] then some .beatsPerMeasure
    else if s = ['8'] then some .bpmChange
    else if s = [] then none else some (.unsupported '0') := rfl

theorem ofText?_one (s : List Char) : ofText? ('1' :: s) =
    (s[0]?.bind Digit.ofChar?).bind fun lane => some (.tap lane.val) := rfl

theorem ofText?_three (s : List Char) : ofText? ('3' :: s) =
    (s[0]?.bind Digit.ofChar?).bind fun lane =>
      (s[1]?.bind Digit.ofChar?).bind fun channel => some (.slide lane.val channel.val) := rfl

section Upper

variable (s : List Char)

theorem ofText?_zero_upper :
    ofText? ('0' :: Text.upper s) = (ofText? ('0' :: s)).map upper := by
  have htwo : Text.upper s = ['2'] ↔ s = ['2'] := upper_eq_iff s (by simp)
  have height : Text.upper s = ['8'] ↔ s = ['8'] := upper_eq_iff s (by simp)
  simp only [ofText?_zero, htwo, height, upper_eq_nil_iff]
  split
  · rfl
  · split
    · rfl
    · split <;> rfl

theorem digit_upper (i : Nat) : (Text.upper s)[i]?.bind Digit.ofChar? = s[i]?.bind Digit.ofChar? := by
  rw [Text.upper, List.getElem?_map]
  cases s[i]? with
  | none => rfl
  | some c => exact Digit.ofChar?_toUpper c

theorem ofText?_one_upper :
    ofText? ('1' :: Text.upper s) = (ofText? ('1' :: s)).map upper := by
  rw [ofText?_one, ofText?_one, digit_upper]
  cases s[0]?.bind Digit.ofChar? <;> rfl

theorem ofText?_three_upper :
    ofText? ('3' :: Text.upper s) = (ofText? ('3' :: s)).map upper := by
  rw [ofText?_three, ofText?_three, digit_upper, digit_upper]
  cases s[0]?.bind Digit.ofChar? with
  | none => rfl
  | some lane => cases s[1]?.bind Digit.ofChar? <;> rfl

theorem ofText?_upper : ofText? (Text.upper s) = (ofText? s).map upper := by
  have hzero {c : Char} : c.toUpper = '0' ↔ c = '0' := toUpper_eq_iff (by decide)
  have hone {c : Char} : c.toUpper = '1' ↔ c = '1' := toUpper_eq_iff (by decide)
  have hthree {c : Char} : c.toUpper = '3' ↔ c = '3' := toUpper_eq_iff (by decide)
  cases s with
  | nil => rfl
  | cons c s =>
    by_cases h0 : c = '0'
    · rw [h0]
      exact ofText?_zero_upper s
    by_cases h1 : c = '1'
    · rw [h1]
      exact ofText?_one_upper s
    by_cases h3 : c = '3'
    · rw [h3]
      exact ofText?_three_upper s
    · rw [ofText?_of_ne h0 h1 h3]
      refine (ofText?_of_ne (mt hzero.1 h0) (mt hone.1 h1) (mt hthree.1 h3) (Text.upper s)).trans ?_
      rw [isAlphanum_toUpper]
      split <;> rfl

end Upper

end Channel

namespace Token

variable (command : List Char)

theorem nameAndArgs_upper : nameAndArgs (Text.upper command) =
    (nameAndArgs command).map Text.upper Text.upper := by
  rw [nameAndArgs, nameAndArgs, cut?_upper command isBlank_toUpper]
  cases cut? isBlank command with
  | none => rfl
  | some cut => exact Prod.ext rfl (trim_upper cut.2)

theorem cut?_colon_upper : cut? (· = ':') (Text.upper command) =
    (cut? (· = ':') command).map (Prod.map Text.upper Text.upper) :=
  cut?_upper command fun c => by
    rw [decide_eq_decide]
    exact toUpper_eq_iff (by decide)

theorem bpmShape?_upper : bpmShape? (Text.upper command) =
    (bpmShape? command).map (Prod.map Text.upper Text.upper) := by
  rw [bpmShape?, bpmShape?, cut?_colon_upper]
  cases cut? (· = ':') command with
  | none => rfl
  | some cut =>
    obtain ⟨head, value⟩ := cut
    rcases head with _ | ⟨b, _ | ⟨p, _ | ⟨m, _ | ⟨high, _ | ⟨low, _ | ⟨c, head⟩⟩⟩⟩⟩⟩
    case cons.cons.cons.cons.cons.nil =>
      change (if Text.upper (Text.upper [b, p, m]) = ['B', 'P', 'M'] then
        some (Text.upper [high, low], Text.upper value) else none) = _
      rw [upper_upper]
      change _ = (if Text.upper [b, p, m] = ['B', 'P', 'M'] then some ([high, low], value)
        else none).map _
      split <;> rfl
    all_goals rfl

theorem messageShape?_upper : messageShape? (Text.upper command) =
    (messageShape? command).map (Prod.map id (Prod.map Text.upper Text.upper)) := by
  rw [messageShape?, messageShape?, cut?_colon_upper]
  cases cut? (· = ':') command with
  | none => rfl
  | some cut =>
    obtain ⟨head, payload⟩ := cut
    rcases head with _ | ⟨a, _ | ⟨b, _ | ⟨c, channel⟩⟩⟩
    case cons.cons.cons =>
      change (if (Text.upper [a, b, c]).all Char.isDigit ∧ Text.upper channel ≠ [] ∧
          (Text.upper channel).all Char.isAlphanum then
        some ((⟨Decimal.ofDigits (Text.upper [a, b, c])⟩ : Track), Text.upper channel,
          trim (Text.upper payload)) else none) = _
      simp only [all_upper _ isDigit_toUpper, all_upper _ isAlphanum_toUpper, ne_eq, upper_eq_nil_iff,
        trim_upper]
      change _ = (if [a, b, c].all Char.isDigit ∧ channel ≠ [] ∧ channel.all Char.isAlphanum then
        some ((⟨Decimal.ofDigits [a, b, c]⟩ : Track), channel, trim payload) else none).map _
      by_cases hshape : [a, b, c].all Char.isDigit ∧ channel ≠ [] ∧ channel.all Char.isAlphanum
      · rw [if_pos hshape, if_pos hshape, upper_of_isDigit (List.all_eq_true.1 hshape.1)]
        rfl
      · rw [if_neg hshape, if_neg hshape]
        rfl
    all_goals rfl

theorem ofBpm_upper (id value : List Char) : ofBpm (Text.upper id) (Text.upper value) =
    ((ofBpm id value).map upper).mapError LineFault.upper := by
  rw [ofBpm, ofBpm, BpmId.ofText?_upper, Decimal.finite?_upper]
  cases BpmId.ofText? id with
  | none => exact congrArg (Except.error ∘ LineFault.notAnId) (capitals_ofList id).symm
  | some id => cases Decimal.finite? value <;> rfl

theorem ofOther_upper : ofOther (Text.upper command) =
    ((ofOther command).map upper).mapError LineFault.upper := by
  unfold ofOther
  rw [messageShape?_upper, nameAndArgs_upper]
  obtain ⟨name, args⟩ := nameAndArgs command
  have hheader : (Except.ok (.header (String.ofList (Text.upper name)) (String.ofList (Text.upper args))) :
      Except LineFault (Token Float)) =
        .ok (upper (.header (String.ofList name) (String.ofList args))) := by
    rw [upper, capitals_ofList, capitals_ofList]
  cases messageShape? command with
  | none => exact hheader
  | some shape =>
    obtain ⟨track, channel, payload⟩ := shape
    have hbeats : Text.upper channel = ['0', '2'] ↔ channel = ['0', '2'] := upper_eq_iff channel (by simp)
    dsimp only [Option.map_some, Prod.map_apply, id]
    simp only [hbeats, Decimal.finite?_upper, Channel.ofText?_upper, all_upper _ isAlphanum_toUpper,
      ne_eq, upper_eq_nil_iff]
    split
    · cases Decimal.finite? payload <;> rfl
    · split
      · cases Channel.ofText? channel with
        | none => exact hheader
        | some channel =>
          exact congrArg (Except.ok ∘ Token.message track channel.upper) (capitals_ofList payload).symm
      · exact hheader

theorem ofCommand_upper : ofCommand (Text.upper command) =
    ((ofCommand command).map upper).mapError LineFault.upper := by
  have htext (text : String → Token Float) (args : List Char) :
      text (String.ofList (unquote (Text.upper args))) =
        text (capitals (String.ofList (unquote args))) := by
    rw [unquote_upper, capitals_ofList]
  have hoffset (args : List Char) : (firstWord? (Text.upper args)).bind Decimal.finite? =
      (firstWord? args).bind Decimal.finite? := by
    rw [firstWord?_upper]
    cases firstWord? args with
    | none => rfl
    | some word => exact Decimal.finite?_upper word
  unfold ofCommand
  rw [bpmShape?_upper, nameAndArgs_upper]
  cases bpmShape? command with
  | some shape => exact ofBpm_upper shape.1 shape.2
  | none =>
    obtain ⟨name, args⟩ := nameAndArgs command
    dsimp only [Option.map_none, Prod.map_apply]
    rw [upper_upper, hoffset, htext .title, htext .artist, htext .designer, ofOther_upper]
    split
    · cases (firstWord? args).bind Decimal.finite? <;> rfl
    · split
      · rfl
      · split
        · rfl
        · split <;> rfl

/-- A line in upper case says the same with its texts in upper case, or is malformed for the same cause. -/
theorem ofLine_upper (line : List Char) : ofLine (Text.upper line) =
    ((ofLine line).map upper).mapError LineFault.upper := by
  have hsign {c : Char} : c.toUpper = '#' ↔ c = '#' := toUpper_eq_iff (by decide)
  have hremark {c : Char} (hc : c ≠ '#') (s : List Char) :
      ofLine (c :: s) = .ok (.remark (String.ofList (c :: s))) := by
    unfold ofLine
    split
    · next heq =>
      cases heq
      exact absurd rfl hc
    · rfl
  cases line with
  | nil => rfl
  | cons c s =>
    by_cases hc : c = '#'
    · rw [hc]
      exact ofCommand_upper s
    · rw [hremark hc]
      refine (hremark (mt hsign.1 hc) (Text.upper s)).trans ?_
      exact congrArg (Except.ok ∘ Token.remark) (capitals_ofList (c :: s)).symm

theorem read_upper (l : Line) : read l.upper =
    ((read l).map (Spanned.map upper)).mapError (Spanned.map LexError.upper) := by
  rw [read, read, Line.upper, ofLine_upper]
  cases ofLine l.text <;> rfl

end Token

/-! ## Texts -/

namespace Piece

theorem isSolid_upper (p : Piece) : p.upper.isSolid = p.isSolid := by
  refine (List.any_map ..).trans (congrArg (p.text.any ·) (funext fun c => ?_))
  rw [Function.comp_apply, isBlank_toUpper]

theorem line_upper (p : Piece) : p.upper.line = p.line.upper := by
  simp only [line, upper, Line.ofRaw, Line.upper, takeWhile_upper _ isBlank_toUpper, trim_upper,
    byteLength_upper]

theorem place_upper (number start : Nat) (ts : List (List Char)) :
    place number start (ts.map Text.upper) = (place number start ts).map upper := by
  induction ts generalizing number start with
  | nil => rfl
  | cons t ts ih =>
    rw [List.map_cons, place, place, byteLength_upper, ih]
    rfl

end Piece

theorem Text.splitOn_upper (s : List Char) :
    (Text.upper s).splitOn '\n' = (s.splitOn '\n').map Text.upper := by
  have hfeed {c : Char} : c.toUpper = '\n' ↔ c = '\n' := toUpper_eq_iff (by decide)
  induction s with
  | nil => rfl
  | cons c s ih =>
    change (c.toUpper :: Text.upper s).splitOn '\n' = _
    rw [List.splitOn_cons_eq_if_modifyHead, List.splitOn_cons_eq_if_modifyHead, ih]
    simp only [beq_iff_eq, hfeed]
    split
    · rfl
    · cases s.splitOn '\n' <;> rfl

theorem solidPieces_upper (source : List Char) :
    solidPieces (Text.upper source) = (solidPieces source).map Piece.upper := by
  rw [solidPieces, pieces, splitOn_upper, Piece.place_upper, List.filter_map]
  simp only [Function.comp_def, Piece.isSolid_upper]
  rfl

/-- A text in upper case is read line by line like the text itself: the lines have the same spans. -/
theorem Token.scan_upper (source : List Char) : scan (Text.upper source) =
    ((scan source).map (List.map (Spanned.map upper))).mapError (Spanned.map LexError.upper) := by
  rw [scan_eq_mapM, scan_eq_mapM, solidPieces_upper]
  generalize solidPieces source = ps
  induction ps with
  | nil => rfl
  | cons p ps ih =>
    rw [List.map_cons, List.mapM_cons, List.mapM_cons, ih, Piece.line_upper, read_upper]
    cases read p.line with
    | error e => rfl
    | ok t => cases ps.mapM fun p => read p.line <;> rfl

end RhythmChart
