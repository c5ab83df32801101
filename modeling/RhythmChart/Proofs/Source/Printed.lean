import RhythmChart.Proofs.Source.Grammar

/-!
# Printed commands

Tracks, channels and names of BPM definitions are printed with a fixed width, and what is read from a line
that is put together of such texts is what was printed (`Token.scan_printed`).  The number of a track is
filled up with zeros on the left, which do not change it (`Decimal.ofDigits_padLeft`), and the digits of
lanes and names are read again as they are (`Channel.Printable.ofText?_text`, `BpmId.ofDigits_high_low`).
-/

namespace RhythmChart

open Text

/-! ## Texts without blanks -/

namespace Text

theorem isBlank_of_isAlphanum {c : Char} (h : c.isAlphanum = true) : isBlank c = false := by
  have hcode : 48 ≤ c.toNat ∧ c.toNat ≤ 122 := by
    simp only [Char.isAlphanum, Char.isAlpha, Char.isUpper, Char.isLower, Char.isDigit, Bool.or_eq_true,
      Bool.and_eq_true, decide_eq_true_eq, ge_iff_le, UInt32.le_iff_toNat_le] at h
    change ((65 ≤ c.toNat ∧ c.toNat ≤ 90) ∨ (97 ≤ c.toNat ∧ c.toNat ≤ 122)) ∨
      (48 ≤ c.toNat ∧ c.toNat ≤ 57) at h
    omega
  simp only [isBlank, blankRanges, List.any_cons, List.any_nil, Bool.or_false, Bool.or_eq_false_iff,
    Bool.and_eq_false_iff, decide_eq_false_iff_not]
  omega

theorem isBlank_of_isDigit {c : Char} (h : c.isDigit = true) : isBlank c = false := by
  apply isBlank_of_isAlphanum
  rw [Char.isAlphanum, h, Bool.or_true]

theorem solid_of_isAlphanum {s : List Char} (h : s.all Char.isAlphanum = true) :
    ∀ c ∈ s, isBlank c = false :=
  fun c hc => isBlank_of_isAlphanum (List.all_eq_true.1 h c hc)

theorem solid_of_isDigit {s : List Char} (h : s.all Char.isDigit = true) : ∀ c ∈ s, isBlank c = false :=
  fun c hc => isBlank_of_isDigit (List.all_eq_true.1 h c hc)

theorem trim_of_solid {s : List Char} (h : ∀ c ∈ s, isBlank c = false) : trim s = s := by
  have htrimmed : Trimmed s [] s [] :=
    ⟨(List.append_nil s).symm, nofun, nofun, fun c hc => h c (List.mem_of_head? hc),
      fun c hc => h c (List.mem_of_getLast? hc)⟩
  exact htrimmed.trim_eq

end Text

namespace Token

/-- A line without any blank is read as a whole. -/
theorem scan_of_solid {line : List Char} {t : Token Float} (hne : line ≠ [])
    (hsolid : ∀ c ∈ line, isBlank c = false) (h : ofLine line = .ok t) :
    scan line = .ok [⟨t, ⟨0, byteLength line⟩⟩] := by
  have hfeed : '\n' ∉ line := fun hmem => absurd (hsolid _ hmem) (by decide)
  have htrim : trim line = line := trim_of_solid hsolid
  have hlead : line.takeWhile isBlank = [] := by
    obtain ⟨c, rest, rfl⟩ := List.exists_cons_of_ne_nil hne
    exact List.takeWhile_cons_of_neg (by simp [hsolid c List.mem_cons_self])
  have hline : Piece.line ⟨1, 0, line⟩ = ⟨1, line, ⟨0, byteLength line⟩⟩ := by
    simp only [Piece.line, Line.ofRaw, hlead, htrim, byteLength_nil, Nat.add_zero, Nat.zero_add]
  have hpiece : Piece.isSolid ⟨1, 0, line⟩ = true := by
    rw [Piece.isSolid_iff, htrim]
    exact hne
  have hread : read (Piece.line ⟨1, 0, line⟩) = .ok ⟨t, ⟨0, byteLength line⟩⟩ := by
    rw [hline, read, h]
  rw [scan_eq_mapM, solidPieces, pieces_of_unbroken hfeed, List.filter_cons_of_pos hpiece, List.filter_nil,
    List.mapM_cons, hread]
  rfl

end Token

/-! ## Numerals -/

namespace Decimal

variable {s : List Char}

theorem solid_of_takeSign (h : ∀ c ∈ (takeSign s).2, isBlank c = false) : ∀ c ∈ s, isBlank c = false := by
  unfold takeSign at h
  split at h
  · exact List.forall_mem_cons.2 ⟨by decide, h⟩
  · exact List.forall_mem_cons.2 ⟨by decide, h⟩
  · exact h

theorem solid_of_takeDigits (h : ∀ c ∈ (takeDigits s).2, isBlank c = false) :
    ∀ c ∈ s, isBlank c = false := by
  intro c hc
  rw [← List.takeWhile_append_dropWhile (p := Char.isDigit) (l := s)] at hc
  rcases List.mem_append.1 hc with hdigit | hrest
  · exact solid_of_isDigit List.all_takeWhile c hdigit
  · exact h c hrest

theorem solid_of_takeFraction (h : ∀ c ∈ (takeFraction s).2, isBlank c = false) :
    ∀ c ∈ s, isBlank c = false := by
  unfold takeFraction at h
  split at h
  · exact List.forall_mem_cons.2 ⟨by decide, solid_of_takeDigits h⟩
  · exact h

theorem solid_of_exponent? {e : Int} (h : exponent? s = some e) : ∀ c ∈ s, isBlank c = false := by
  unfold exponent? at h
  split at h
  · exact nofun
  · next c s =>
    dsimp only at h
    split at h
    · next hmark =>
      obtain ⟨hc, -, hdigits⟩ := hmark
      refine List.forall_mem_cons.2 ⟨?_, solid_of_takeSign (solid_of_isDigit hdigits)⟩
      rcases hc with rfl | rfl <;> decide
    · cases h

/-- There is no blank in a numeral. -/
theorem solid_of_ofText? {d : Decimal} (h : ofText? s = some d) : ∀ c ∈ s, isBlank c = false := by
  unfold ofText? at h
  dsimp only at h
  split at h
  · cases h
  · obtain ⟨e, hexponent, -⟩ := Option.map_eq_some_iff.1 h
    exact solid_of_takeSign (solid_of_takeDigits (solid_of_takeFraction (solid_of_exponent? hexponent)))

theorem finite?_of_ofText? {d : Decimal} (h : ofText? s = some d)
    (hfinite : Scalar.isFinite d.toFloat = true) : finite? s = some ⟨d.toFloat, hfinite⟩ := by
  rw [finite?, trim_of_solid (solid_of_ofText? h), h]
  exact dif_pos hfinite

/-! ## Printed numbers -/

/-- Zeros on the left do not count. -/
theorem ofDigits_padLeft (width : Nat) (s : List Char) : ofDigits (padLeft width '0' s) = ofDigits s := by
  have hzeros (n : Nat) : (List.replicate n '0').foldl (fun n d => 10 * n + (d.toNat - 48)) 0 = 0 := by
    induction n with
    | zero => rfl
    | succ n ih => rwa [List.replicate_succ, List.foldl_cons]
  rw [ofDigits, padLeft, List.foldl_append, hzeros]
  rfl

theorem ofDigits_toString (n : Nat) : ofDigits (toString n).toList = n := by
  have hdigits : (toString n).toList = Nat.toDigits 10 n := Nat.toList_repr
  rw [hdigits]
  exact Nat.ofDigitChars_ten_toDigits

end Decimal

namespace Track

/-- A track below a thousand is printed with three digits. -/
theorem exists_text {track : Track} (h : track.number ≤ 999) : ∃ a b c, track.text = ['#', a, b, c] ∧
    [a, b, c].all Char.isDigit = true ∧ Decimal.ofDigits [a, b, c] = track.number := by
  have hdigits : (toString track.number).toList = Nat.toDigits 10 track.number := Nat.toList_repr
  have hlength : (toString track.number).toList.length ≤ 3 := by
    rw [hdigits]
    exact (Nat.length_toDigits_le_iff (by decide) (Nat.succ_pos 2)).2 (Nat.lt_succ_of_le h)
  have hwidth : (padLeft 3 '0' (toString track.number).toList).length = 3 := by
    rw [padLeft, List.length_append, List.length_replicate]
    omega
  obtain ⟨a, b, c, habc⟩ := List.length_eq_three.1 hwidth
  refine ⟨a, b, c, by rw [text, habc], ?_, ?_⟩
  · rw [← habc, padLeft, hdigits]
    refine List.all_eq_true.2 fun d hd => ?_
    rcases List.mem_append.1 hd with hzero | hdigit
    · rw [List.eq_of_mem_replicate hzero]
      rfl
    · exact Nat.isDigit_of_mem_toDigits (Nat.succ_pos 9) (Nat.le_refl 10) hdigit
  · rw [← habc, Decimal.ofDigits_padLeft, Decimal.ofDigits_toString]

end Track

/-! ## Printed digits -/

theorem Digit.isAlphanum_toChar (d : Digit) : d.toChar.isAlphanum = true := by
  revert d
  decide

namespace Channel

/-- The channel is decoded, and its numbers have digits. -/
inductive Printable : Channel → Prop
  | bpmChange : Printable .bpmChange
  | tap {lane : Nat} (lane_le : lane ≤ 35) : Printable (.tap lane)
  | slide {lane channel : Nat} (lane_le : lane ≤ 35) (channel_le : channel ≤ 35) :
      Printable (.slide lane channel)

theorem exists_digit_eq {n : Nat} (h : n ≤ 35) : ∃ d : Digit, d.val = n ∧ digit n = d.toChar := by
  refine ⟨⟨n, Nat.lt_succ_of_le h⟩, rfl, ?_⟩
  rw [digit, Digit.char?, dif_pos]
  rfl

namespace Printable

variable {channel : Channel} (h : channel.Printable)

include h

theorem ofText?_text : ofText? channel.text = some channel := by
  cases h with
  | bpmChange => rfl
  | tap hlane =>
    obtain ⟨lane, rfl, htext⟩ := exists_digit_eq hlane
    rw [text, htext]
    change ((Digit.ofChar? lane.toChar).bind fun d => some (Channel.tap d.val)) = _
    rw [Digit.ofChar?_toChar]
    rfl
  | slide hlane hchannel =>
    obtain ⟨lane, rfl, htext⟩ := exists_digit_eq hlane
    obtain ⟨channel, rfl, htext'⟩ := exists_digit_eq hchannel
    rw [text, htext, htext']
    change ((Digit.ofChar? lane.toChar).bind fun d => (Digit.ofChar? channel.toChar).bind fun d' =>
      some (Channel.slide d.val d'.val)) = _
    rw [Digit.ofChar?_toChar, Digit.ofChar?_toChar]
    rfl

theorem all_isAlphanum_text : channel.text.all Char.isAlphanum = true := by
  cases h with
  | bpmChange => rfl
  | tap hlane =>
    obtain ⟨lane, -, htext⟩ := exists_digit_eq hlane
    rw [text, htext, List.all_cons, List.all_cons, lane.isAlphanum_toChar]
    rfl
  | slide hlane hchannel =>
    obtain ⟨lane, -, htext⟩ := exists_digit_eq hlane
    obtain ⟨channel, -, htext'⟩ := exists_digit_eq hchannel
    rw [text, htext, htext', List.all_cons, List.all_cons, List.all_cons, lane.isAlphanum_toChar,
      channel.isAlphanum_toChar]
    rfl

theorem text_ne_nil : channel.text ≠ [] := by
  cases h <;> exact List.cons_ne_nil _ _

/-- It is not taken for the channel of beats per measure. -/
theorem text_ne : channel.text ≠ ['0', '2'] := by
  cases h <;> simp [text]

end Printable

end Channel

/-! ## Printed commands -/

namespace Token

/-- The line of a message. -/
def messageText (track : Track) (channel : Channel) (payload : String) : String :=
  toString track ++ toString channel ++ ":" ++ payload

/-- The line of a BPM definition. -/
def bpmDefinitionText (id : BpmId) (value : String) : String := "#BPM" ++ toString id ++ ":" ++ value

section Message

/-- The parts of a line of a message, of a track with three digits. -/
theorem exists_toList_messageText {track : Track} (channel : Channel) (payload : String)
    (htrack : track.number ≤ 999) : ∃ a b c,
    (messageText track channel payload).toList =
      '#' :: ([a, b, c] ++ (channel.text ++ ':' :: payload.toList)) ∧
    [a, b, c].all Char.isDigit = true ∧ Decimal.ofDigits [a, b, c] = track.number := by
  obtain ⟨a, b, c, htext, hdigits, hnumber⟩ := track.exists_text htrack
  refine ⟨a, b, c, ?_, hdigits, hnumber⟩
  have htoList : (toString track).toList = track.text := String.toList_ofList
  have hchannel : (toString channel).toList = channel.text := String.toList_ofList
  rw [messageText, String.toList_append, String.toList_append, String.toList_append, htoList, hchannel,
    htext, List.append_assoc, List.append_assoc]
  rfl

variable {track : Track} {channel : Channel} {payload : String} (htrack : track.number ≤ 999)
  (hchannel : channel.Printable) (hpayload : payload.toList.all Char.isAlphanum = true)

include htrack hchannel hpayload

theorem solid_messageText : ∀ c ∈ (messageText track channel payload).toList, isBlank c = false := by
  obtain ⟨a, b, c, hline, hdigits, -⟩ := exists_toList_messageText channel payload htrack
  have htext : ∀ c ∈ channel.text, isBlank c = false := solid_of_isAlphanum hchannel.all_isAlphanum_text
  have hvalue : ∀ c ∈ ':' :: payload.toList, isBlank c = false :=
    List.forall_mem_cons.2 ⟨by decide, solid_of_isAlphanum hpayload⟩
  rw [hline]
  refine List.forall_mem_cons.2 ⟨by decide, List.forall_mem_append.2 ⟨solid_of_isDigit hdigits, ?_⟩⟩
  exact List.forall_mem_append.2 ⟨htext, hvalue⟩

/-- The line is taken for no other command. -/
theorem ofLine_messageText (hne : payload ≠ "") :
    ofLine (messageText track channel payload).toList = .ok (.message track channel payload) := by
  obtain ⟨a, b, c, hline, hdigits, hnumber⟩ := exists_toList_messageText channel payload htrack
  have htrim : trim payload.toList = payload.toList := trim_of_solid (solid_of_isAlphanum hpayload)
  have haddress : Addressed ([a, b, c] ++ (channel.text ++ ':' :: payload.toList))
      ⟨Decimal.ofDigits [a, b, c]⟩ channel.text payload.toList :=
    .mk rfl hdigits hchannel.text_ne_nil hchannel.all_isAlphanum_text
  rw [hnumber] at haddress
  have hrecognised : Recognised ([a, b, c] ++ (channel.text ++ ':' :: payload.toList))
      (.message track channel (trim payload.toList)) := by
    refine .message haddress hchannel.text_ne ?_ ?_ hchannel.ofText?_text
    · rw [htrim]
      exact mt String.toList_eq_nil_iff.1 hne
    · rw [htrim]
      exact hpayload
  have hmeans := hrecognised.means_iff.1 (.message track channel (trim payload.toList))
  rw [htrim, String.ofList_toList] at hmeans
  rw [hline]
  exact hmeans

theorem scan_messageText (hne : payload ≠ "") : scan (messageText track channel payload).toList =
    .ok [⟨.message track channel payload, ⟨0, byteLength (messageText track channel payload).toList⟩⟩] := by
  refine scan_of_solid ?_ (solid_messageText htrack hchannel hpayload)
    (ofLine_messageText htrack hchannel hpayload hne)
  obtain ⟨a, b, c, hline, -⟩ := exists_toList_messageText channel payload htrack
  rw [hline]
  exact List.cons_ne_nil _ _

end Message

section BpmDefinition

variable (id : BpmId) {value : String} {d : Decimal} (hvalue : Decimal.ofText? value.toList = some d)

theorem toList_bpmDefinitionText (id : BpmId) (value : String) : (bpmDefinitionText id value).toList =
    ['#', 'B', 'P', 'M'] ++ ([id.high.toChar, id.low.toChar] ++ ':' :: value.toList) := by
  have hid : (toString id).toList = [id.high.toChar, id.low.toChar] := String.toList_ofList
  rw [bpmDefinitionText, String.toList_append, String.toList_append, String.toList_append, hid,
    List.append_assoc, List.append_assoc]
  rfl

include hvalue

theorem solid_bpmDefinitionText : ∀ c ∈ (bpmDefinitionText id value).toList, isBlank c = false := by
  have hkeyword : ∀ c ∈ ['#', 'B', 'P', 'M'], isBlank c = false :=
    List.forall_mem_cons.2 ⟨by decide, solid_of_isAlphanum rfl⟩
  have hid : ∀ c ∈ [id.high.toChar, id.low.toChar], isBlank c = false := by
    apply solid_of_isAlphanum
    rw [List.all_cons, List.all_cons, id.high.isAlphanum_toChar, id.low.isAlphanum_toChar]
    rfl
  have hnumeral : ∀ c ∈ ':' :: value.toList, isBlank c = false :=
    List.forall_mem_cons.2 ⟨by decide, Decimal.solid_of_ofText? hvalue⟩
  rw [toList_bpmDefinitionText]
  exact List.forall_mem_append.2 ⟨hkeyword, List.forall_mem_append.2 ⟨hid, hnumeral⟩⟩

theorem ofLine_bpmDefinitionText (hfinite : Scalar.isFinite d.toFloat = true) :
    ofLine (bpmDefinitionText id value).toList = .ok (.bpmDefinition id ⟨d.toFloat, hfinite⟩) := by
  have hdigit (digit : Digit) : digit.toChar ≠ ':' := by
    have halphanum := digit.isAlphanum_toChar
    rintro heq
    rw [heq] at halphanum
    exact absurd halphanum (by decide)
  have hrecognised : Recognised ('B' :: 'P' :: 'M' :: id.high.toChar :: id.low.toChar :: ':' :: value.toList)
      (.bpmDefinition id.high.toChar id.low.toChar value.toList) :=
    .bpmDefinition rfl (by decide) (hdigit id.high) (hdigit id.low)
  have hmeans := hrecognised.means_iff.1 (.bpmDefinition (Digit.ofChar?_toChar id.high)
    (Digit.ofChar?_toChar id.low) (Decimal.finite?_of_ofText? hvalue hfinite))
  rw [BpmId.ofDigits_high_low] at hmeans
  rw [toList_bpmDefinitionText]
  exact hmeans

theorem scan_bpmDefinitionText (hfinite : Scalar.isFinite d.toFloat = true) :
    scan (bpmDefinitionText id value).toList =
      .ok [⟨.bpmDefinition id ⟨d.toFloat, hfinite⟩,
        ⟨0, byteLength (bpmDefinitionText id value).toList⟩⟩] := by
  refine scan_of_solid ?_ (solid_bpmDefinitionText id hvalue) (ofLine_bpmDefinitionText id hvalue hfinite)
  rw [toList_bpmDefinitionText]
  exact List.cons_ne_nil _ _

end BpmDefinition

/-- A line that is put together of printed parts is read as one token, that of these parts. -/
theorem scan_printed :
    (∀ (track : Track) (channel : Channel) (payload : String), track.number ≤ 999 → channel.Printable →
      payload ≠ "" → payload.toList.all Char.isAlphanum = true →
        scan (messageText track channel payload).toList =
          .ok [⟨.message track channel payload,
            ⟨0, byteLength (messageText track channel payload).toList⟩⟩]) ∧
      ∀ (id : BpmId) (value : String) (d : Decimal), Decimal.ofText? value.toList = some d →
        ∀ hfinite : Scalar.isFinite d.toFloat = true,
          scan (bpmDefinitionText id value).toList =
            .ok [⟨.bpmDefinition id ⟨d.toFloat, hfinite⟩,
              ⟨0, byteLength (bpmDefinitionText id value).toList⟩⟩] :=
  ⟨fun _ _ _ htrack hchannel hne hpayload => scan_messageText htrack hchannel hpayload hne,
    fun id _ _ hvalue hfinite => scan_bpmDefinitionText id hvalue hfinite⟩

/-- A track of one digit is filled up, a slide has two digits, and a BPM is negative. -/
theorem scan_printed_of_slide :
    scan "#00730Z:12zZ0".toList = .ok [⟨.message ⟨7⟩ (.slide 0 35) "12zZ0", ⟨0, 13⟩⟩] ∧
      ∃ bpm, scan "#BPMZZ:-1.5e2".toList = .ok [⟨.bpmDefinition ⟨1295⟩ bpm, ⟨0, 13⟩⟩] := by
  have hmessage := scan_printed.1 ⟨7⟩ (.slide 0 35) "12zZ0" (by decide) (.slide (by decide) (by decide))
    (by decide) (by decide)
  have hdefinition := scan_printed.2 ⟨1295⟩ "-1.5e2" ⟨true, 15, 1⟩ (by decide) (by decide +kernel)
  exact ⟨hmessage, _, hdefinition⟩

end Token

end RhythmChart
