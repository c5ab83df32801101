import RhythmChart.Proofs.Source.Lines
import RhythmChart.Proofs.Text.LetterCase
import RhythmChart.Proofs.Text.Parts

/-!
# The grammar of lines

A line has one of seven shapes, told by what the line is put together of: `Shaped line shape`.  The shapes
of commands that are recognised (`Recognised`) exclude each other, and a command of none of them is a
header.  What a line of some shape says, or why it is malformed, is `LineShape.Means`.  `read_classified`
says that each line has exactly one shape and is read as this shape means, whatever characters it has.
-/

namespace RhythmChart

open Text

/-! ## Shapes -/

/-- A fact about a song that a command names. -/
inductive SongFact where
  | title
  | artist
  | designer
  deriving DecidableEq

namespace SongFact

def keyword : SongFact → String
  | title => "TITLE"
  | artist => "ARTIST"
  | designer => "DESIGNER"

def token : SongFact → String → Token Float
  | title, text => .title text
  | artist, text => .artist text
  | designer, text => .designer text

end SongFact

/-- The shape of a line, with the parts that count. -/
inductive LineShape where
  | remark (text : List Char)
  | bpmDefinition (high low : Char) (value : List Char)
  | waveOffset (args : List Char)
  | fact (fact : SongFact) (args : List Char)
  | beatsPerMeasure (track : Track) (value : List Char)
  | message (track : Track) (channel : Channel) (payload : List Char)
  | header (name args : List Char)

/-- The name of a command stands before its first blank, its arguments are what is after it, trimmed. -/
inductive Worded (command name : List Char) : List Char → Prop
  | bare (eq : command = name) (name_solid : ∀ c ∈ name, isBlank c = false) : Worded command name []
  | spaced {c : Char} {rest : List Char} (eq : command = name ++ c :: rest)
      (name_solid : ∀ d ∈ name, isBlank d = false) (blank : isBlank c = true) :
      Worded command name (trim rest)

/-- Three digits of a track, a text of letters and digits, a colon and the rest. -/
inductive Addressed (command : List Char) : Track → List Char → List Char → Prop
  | mk {a b c : Char} {channel rest : List Char} (eq : command = a :: b :: c :: (channel ++ ':' :: rest))
      (digits : [a, b, c].all Char.isDigit = true) (nonempty : channel ≠ [])
      (alphanumeric : channel.all Char.isAlphanum = true) :
      Addressed command ⟨Decimal.ofDigits [a, b, c]⟩ channel rest

/-- The shapes of commands that are recognised.  The command begins after the number sign. -/
inductive Recognised (command : List Char) : LineShape → Prop
  | bpmDefinition {b p m high low : Char} {value : List Char}
      (eq : command = b :: p :: m :: high :: low :: ':' :: value)
      (keyword : upper [b, p, m] = ['B', 'P', 'M']) (high_ne : high ≠ ':') (low_ne : low ≠ ':') :
      Recognised command (.bpmDefinition high low value)
  | waveOffset {name args : List Char} (words : Worded command name args)
      (keyword : String.ofList (upper name) = "WAVEOFFSET") : Recognised command (.waveOffset args)
  | fact {name args : List Char} {fact : SongFact} (words : Worded command name args)
      (keyword : String.ofList (upper name) = fact.keyword) : Recognised command (.fact fact args)
  | beatsPerMeasure {track : Track} {rest : List Char}
      (address : Addressed command track ['0', '2'] rest) :
      Recognised command (.beatsPerMeasure track (trim rest))
  | message {track : Track} {channel rest : List Char} {kind : Channel}
      (address : Addressed command track channel rest) (channel_ne : channel ≠ ['0', '2'])
      (nonempty : trim rest ≠ []) (alphanumeric : (trim rest).all Char.isAlphanum = true)
      (known : Channel.ofText? channel = some kind) :
      Recognised command (.message track kind (trim rest))

/-- The shape of a line: a remark if no number sign is in front, a header if it is not recognised. -/
inductive Shaped (line : List Char) : LineShape → Prop
  | remark (h : line.head? ≠ some '#') : Shaped line (.remark line)
  | recognised {command : List Char} {shape : LineShape} (eq : line = '#' :: command)
      (h : Recognised command shape) : Shaped line shape
  | header {command name args : List Char} (eq : line = '#' :: command)
      (words : Worded command name args) (h : ∀ shape, ¬ Recognised command shape) :
      Shaped line (.header name args)

namespace LineShape

/-- What a line of some shape says, or why it is malformed. -/
inductive Means : LineShape → Except LineFault (Token Float) → Prop
  | remark (text : List Char) : Means (.remark text) (.ok (.remark (String.ofList text)))
  | bpmDefinition {a b : Char} {value : List Char} {high low : Digit} {bpm : Finite Float}
      (high_digit : Digit.ofChar? a = some high) (low_digit : Digit.ofChar? b = some low)
      (finite : Decimal.finite? value = some bpm) :
      Means (.bpmDefinition a b value) (.ok (.bpmDefinition (.ofDigits high low) bpm))
  | notAnId {a b : Char} (value : List Char) (h : Digit.ofChar? a = none ∨ Digit.ofChar? b = none) :
      Means (.bpmDefinition a b value) (.error (.notAnId (String.ofList [a, b])))
  | noBpm {a b : Char} {value : List Char} (high_digit : (Digit.ofChar? a).isSome = true)
      (low_digit : (Digit.ofChar? b).isSome = true) (h : Decimal.finite? value = none) :
      Means (.bpmDefinition a b value) (.error (.expected "decimal BPM"))
  | waveOffset {args word : List Char} {seconds : Finite Float} (first : FirstWord args word)
      (finite : Decimal.finite? word = some seconds) : Means (.waveOffset args) (.ok (.waveOffset seconds))
  | noSeconds {args : List Char} (h : ∀ word, FirstWord args word → Decimal.finite? word = none) :
      Means (.waveOffset args) (.error (.expected "decimal seconds"))
  | fact (fact : SongFact) {args text : List Char} (h : Unquoted args text) :
      Means (.fact fact args) (.ok (fact.token (String.ofList text)))
  | beatsPerMeasure (track : Track) {value : List Char} {beats : Finite Float}
      (finite : Decimal.finite? value = some beats) :
      Means (.beatsPerMeasure track value) (.ok (.beatsPerMeasure track beats))
  | noBeats (track : Track) {value : List Char} (h : Decimal.finite? value = none) :
      Means (.beatsPerMeasure track value) (.error (.expected "decimal beats per measure"))
  | message (track : Track) (channel : Channel) (payload : List Char) :
      Means (.message track channel payload) (.ok (.message track channel (String.ofList payload)))
  | header (name args : List Char) :
      Means (.header name args) (.ok (.header (String.ofList name) (String.ofList args)))

end LineShape

/-! ## Recognising the parts -/

section Parts

variable {command name args : List Char}

theorem worded_iff : Worded command name args ↔ Token.nameAndArgs command = (name, args) := by
  unfold Token.nameAndArgs
  constructor
  · intro h
    cases h with
    | bare eq name_solid => rw [eq, cut?_eq_none_iff.2 name_solid]
    | spaced eq name_solid blank => rw [eq, cut?_append name_solid blank]
  · intro h
    split at h
    · next hcut =>
      cases h
      obtain ⟨c, eq, name_solid, blank⟩ := cut?_eq_some_iff.1 hcut
      exact .spaced eq name_solid blank
    · next hcut =>
      cases h
      exact .bare rfl (cut?_eq_none_iff.1 hcut)

theorem messageShape?_eq_some_iff {track : Track} {channel payload : List Char} :
    Token.messageShape? command = some (track, channel, payload) ↔
      ∃ rest, Addressed command track channel rest ∧ payload = trim rest := by
  unfold Token.messageShape?
  constructor
  · intro h
    split at h
    · next head rest hcut =>
      obtain ⟨c, eq, -, hc⟩ := cut?_eq_some_iff.1 hcut
      obtain rfl : c = ':' := of_decide_eq_true hc
      split at h
      · split at h
        · next hshape =>
          cases h
          exact ⟨rest, .mk eq hshape.1 hshape.2.1 hshape.2.2, rfl⟩
        · cases h
      · cases h
    · cases h
  · rintro ⟨rest, ⟨eq, digits, nonempty, alphanumeric⟩, rfl⟩
    next a b c =>
    have hcolon (d : Char) (hd : d.isAlphanum = true) : decide (d = ':') = false := by
      refine decide_eq_false ?_
      rintro rfl
      exact absurd hd (by decide)
    have hdigit (d : Char) (hd : d.isDigit = true) : d.isAlphanum = true := by
      rw [Char.isAlphanum, hd, Bool.or_true]
    have hcut : cut? (· = ':') command = some (a :: b :: c :: channel, rest) := by
      rw [eq]
      change cut? (· = ':') ((a :: b :: c :: channel) ++ ':' :: rest) = _
      refine cut?_append (fun d hd => hcolon d ?_) rfl
      have hhead := List.all_eq_true.1 digits
      rcases List.mem_append.1 (show d ∈ [a, b, c] ++ channel from hd) with hd | hd
      · exact hdigit d (hhead d hd)
      · exact List.all_eq_true.1 alphanumeric d hd
    rw [hcut]
    exact if_pos ⟨digits, nonempty, alphanumeric⟩

theorem bpmShape?_eq_some_iff {id value : List Char} : Token.bpmShape? command = some (id, value) ↔
    ∃ high low, id = [high, low] ∧ Recognised command (.bpmDefinition high low value) := by
  unfold Token.bpmShape?
  constructor
  · intro h
    split at h
    · next head rest hcut =>
      obtain ⟨c, eq, hfree, hc⟩ := cut?_eq_some_iff.1 hcut
      obtain rfl : c = ':' := of_decide_eq_true hc
      split at h
      · next b p m high low =>
        split at h
        · next hkeyword =>
          cases h
          exact ⟨high, low, rfl, .bpmDefinition eq hkeyword (of_decide_eq_false (hfree high (by simp)))
            (of_decide_eq_false (hfree low (by simp)))⟩
        · cases h
      · cases h
    · cases h
  · rintro ⟨high, low, rfl, h⟩
    cases h with
    | @bpmDefinition b p m _ _ _ eq keyword high_ne low_ne =>
      have hcut : cut? (· = ':') command = some ([b, p, m, high, low], value) := by
        rw [eq]
        change cut? (· = ':') ([b, p, m, high, low] ++ ':' :: value) = _
        refine cut?_append (fun d hd => decide_eq_false ?_) rfl
        rintro rfl
        have hupper : ':' ∈ [b, p, m] → ':' ∈ upper [b, p, m] := List.mem_map_of_mem
        rw [keyword] at hupper
        rcases List.mem_append.1 (show ':' ∈ [b, p, m] ++ [high, low] from hd) with hd | hd
        · exact absurd (hupper hd) (by decide)
        · rcases List.mem_cons.1 hd with rfl | hd
          · exact high_ne rfl
          · exact low_ne (List.mem_singleton.1 hd).symm
      rw [hcut]
      exact if_pos keyword

end Parts

/-! ## Prefixes counted in bytes -/

namespace Token

/-- The prefix of a BPM definition is the same if three bytes are cut off for it, in the middle of a character
or not. -/
theorem bpmShape?_eq_splitAtByte? (command : List Char) :
    bpmShape? command = (cut? (· = ':') command).bind fun cut =>
      (splitAtByte? 3 cut.1).bind fun head =>
        if upper head.1 = ['B', 'P', 'M'] ∧ head.2.length = 2 then some (head.2, cut.2) else none := by
  unfold bpmShape?
  cases cut? (· = ':') command with
  | none => rfl
  | some cut =>
    obtain ⟨head, value⟩ := cut
    rw [Option.bind_some]
    refine Option.ext fun result => ?_
    rw [Option.bind_eq_some_iff]
    constructor
    · intro h
      dsimp only at h
      split at h
      · next b p m high low =>
        split at h
        · next hkeyword =>
          cases h
          refine ⟨([b, p, m], [high, low]), splitAtByte?_eq_some_iff.2 ⟨rfl, ?_⟩,
            if_pos ⟨hkeyword, rfl⟩⟩
          rw [← byteLength_upper, hkeyword]
          rfl
        · cases h
      · cases h
    · rintro ⟨⟨before, after⟩, hsplit, h⟩
      obtain ⟨rfl, -⟩ := splitAtByte?_eq_some_iff.1 hsplit
      split at h
      · next hshape =>
        cases h
        obtain ⟨hkeyword, hlength⟩ := hshape
        have hbefore : before.length = 3 := by rw [← length_upper, hkeyword]; rfl
        obtain ⟨b, p, m, rfl⟩ := List.length_eq_three.1 hbefore
        obtain ⟨high, low, rfl⟩ := List.length_eq_two.1 hlength
        exact if_pos hkeyword
      · cases h

/-- So are the digits of a track. -/
theorem messageShape?_eq_splitAtByte? (command : List Char) :
    messageShape? command = (cut? (· = ':') command).bind fun cut =>
      (splitAtByte? 3 cut.1).bind fun head =>
        if head.1.all Char.isDigit ∧ head.2 ≠ [] ∧ head.2.all Char.isAlphanum then
          some (⟨Decimal.ofDigits head.1⟩, head.2, trim cut.2)
        else none := by
  unfold messageShape?
  cases cut? (· = ':') command with
  | none => rfl
  | some cut =>
    obtain ⟨head, payload⟩ := cut
    rw [Option.bind_some]
    refine Option.ext fun result => ?_
    rw [Option.bind_eq_some_iff]
    constructor
    · intro h
      dsimp only at h
      split at h
      · next a b c channel =>
        split at h
        · next hshape =>
          cases h
          refine ⟨([a, b, c], channel), splitAtByte?_eq_some_iff.2 ⟨rfl, ?_⟩, if_pos hshape⟩
          exact byteLength_of_isDigit (List.all_eq_true.1 hshape.1)
        · cases h
      · cases h
    · rintro ⟨⟨before, after⟩, hsplit, h⟩
      obtain ⟨rfl, hbytes⟩ := splitAtByte?_eq_some_iff.1 hsplit
      split at h
      · next hshape =>
        cases h
        rw [byteLength_of_isDigit (List.all_eq_true.1 hshape.1)] at hbytes
        obtain ⟨a, b, c, rfl⟩ := List.length_eq_three.1 hbytes
        exact if_pos hshape
      · cases h

end Token

/-! ## The shapes exclude each other -/

/-- What the first character of a command tells. -/
inductive LineShape.Kind where
  | remark
  | bpmDefinition
  | waveOffset
  | fact
  | addressed
  | header

namespace LineShape

def kind : LineShape → Kind
  | .remark _ => .remark
  | .bpmDefinition _ _ _ => .bpmDefinition
  | .waveOffset _ => .waveOffset
  | .fact _ _ => .fact
  | .beatsPerMeasure _ _ => .addressed
  | .message _ _ _ => .addressed
  | .header _ _ => .header

/-- The kind of command that can begin with a character in upper case. -/
def Kind.ofChar? (c : Char) : Option Kind :=
  if c = 'B' then some .bpmDefinition
  else if c = 'W' then some .waveOffset
  else if c = 'T' ∨ c = 'A' ∨ c = 'D' then some .fact
  else if c.isDigit then some .addressed
  else none

theorem Kind.ofChar?_of_isDigit {c : Char} (h : c.isDigit = true) :
    ofChar? c.toUpper = some .addressed := by
  have hne {d : Char} (hd : d.isDigit = false) : c ≠ d := by
    rintro rfl
    rw [h] at hd
    cases hd
  rw [toUpper_of_isDigit h, ofChar?, if_neg (hne (by decide)), if_neg (hne (by decide)), if_neg,
    if_pos h]
  rintro (hc | hc | hc) <;> exact hne (by decide) hc

end LineShape

namespace Recognised

variable {command : List Char} {shape shape' : LineShape}

theorem head_of_keyword {name args : List Char} (words : Worded command name args) {c : Char}
    {keyword : List Char} (h : upper name = c :: keyword) :
    ∃ d rest, command = d :: rest ∧ d.toUpper = c := by
  cases name with
  | nil => cases h
  | cons d name =>
    obtain ⟨hd, -⟩ := List.cons.inj h
    cases words with
    | bare eq _ => exact ⟨d, name, eq, hd⟩
    | spaced eq _ _ => exact ⟨d, _, eq, hd⟩

theorem exists_kind (h : Recognised command shape) :
    ∃ c rest, command = c :: rest ∧ LineShape.Kind.ofChar? c.toUpper = some shape.kind := by
  have hkeyword {name args : List Char} {text : String} (words : Worded command name args)
      (heq : String.ofList (upper name) = text) : upper name = text.toList := by
    rw [← heq, String.toList_ofList]
  cases h with
  | @bpmDefinition b p m _ _ _ eq keyword _ _ =>
    obtain ⟨hb, -⟩ := List.cons.inj keyword
    exact ⟨b, _, eq, by rw [hb]; rfl⟩
  | waveOffset words keyword =>
    obtain ⟨d, rest, eq, hd⟩ := head_of_keyword words (hkeyword words keyword)
    exact ⟨d, rest, eq, by rw [hd]; rfl⟩
  | @fact _ _ fact words keyword =>
    cases fact <;>
    · obtain ⟨d, rest, eq, hd⟩ := head_of_keyword words (hkeyword words keyword)
      exact ⟨d, rest, eq, by rw [hd]; rfl⟩
  | beatsPerMeasure address =>
    obtain ⟨eq, digits, -, -⟩ := address
    exact ⟨_, _, eq, LineShape.Kind.ofChar?_of_isDigit (List.all_eq_true.1 digits _ (by simp))⟩
  | message address _ _ _ _ =>
    obtain ⟨eq, digits, -, -⟩ := address
    exact ⟨_, _, eq, LineShape.Kind.ofChar?_of_isDigit (List.all_eq_true.1 digits _ (by simp))⟩

theorem kind_eq (h : Recognised command shape) (h' : Recognised command shape') :
    shape.kind = shape'.kind := by
  obtain ⟨c, rest, rfl, hc⟩ := h.exists_kind
  obtain ⟨c', rest', eq, hc'⟩ := h'.exists_kind
  cases eq
  exact Option.some.inj (hc.symm.trans hc')

theorem unique (h : Recognised command shape) (h' : Recognised command shape') : shape = shape' := by
  have hkind := h.kind_eq h'
  have hwords {name name' args args' : List Char} (words : Worded command name args)
      (words' : Worded command name' args') : name = name' ∧ args = args' :=
    Prod.mk.inj ((worded_iff.1 words).symm.trans (worded_iff.1 words'))
  have haddress {track track' : Track} {channel channel' rest rest' : List Char}
      (address : Addressed command track channel rest)
      (address' : Addressed command track' channel' rest') :
      track = track' ∧ channel = channel' ∧ trim rest = trim rest' := by
    have hshape := messageShape?_eq_some_iff.2 ⟨rest, address, rfl⟩
    have hshape' := messageShape?_eq_some_iff.2 ⟨rest', address', rfl⟩
    obtain ⟨htrack, heq⟩ := Prod.mk.inj (Option.some.inj (hshape.symm.trans hshape'))
    exact ⟨htrack, Prod.mk.inj heq⟩
  cases h with
  | bpmDefinition eq _ _ _ =>
    cases h' with
    | bpmDefinition eq' _ _ _ =>
      cases eq.symm.trans eq'
      rfl
    | _ => cases hkind
  | waveOffset words keyword =>
    cases h' with
    | waveOffset words' keyword' => rw [(hwords words words').2]
    | _ => cases hkind
  | @fact name args fact words keyword =>
    cases h' with
    | @fact _ _ fact' words' keyword' =>
      obtain ⟨rfl, rfl⟩ := hwords words words'
      have hfact : fact = fact' := by
        have heq : fact.keyword = fact'.keyword := keyword.symm.trans keyword'
        cases fact <;> cases fact' <;> first | rfl | exact absurd heq (by decide)
      rw [hfact]
    | _ => cases hkind
  | beatsPerMeasure address =>
    cases h' with
    | beatsPerMeasure address' =>
      obtain ⟨rfl, -, htrim⟩ := haddress address address'
      rw [htrim]
    | message address' channel_ne _ _ _ =>
      exact absurd (haddress address address').2.1.symm channel_ne
    | _ => cases hkind
  | message address channel_ne _ _ known =>
    cases h' with
    | beatsPerMeasure address' => exact absurd (haddress address address').2.1 channel_ne
    | message address' _ _ _ known' =>
      obtain ⟨rfl, rfl, htrim⟩ := haddress address address'
      rw [htrim, Option.some.inj (known.symm.trans known')]
    | _ => cases hkind

end Recognised

/-! ## Each line has one shape -/

namespace Shaped

variable {line : List Char} {shape shape' : LineShape}

theorem exists_shaped (line : List Char) : ∃ shape, Shaped line shape := by
  by_cases hhead : line.head? = some '#'
  · obtain ⟨command, rfl⟩ := List.head?_eq_some_iff.1 hhead
    by_cases h : ∃ shape, Recognised command shape
    · obtain ⟨shape, h⟩ := h
      exact ⟨shape, .recognised rfl h⟩
    · have words : Worded command (Token.nameAndArgs command).1 (Token.nameAndArgs command).2 :=
        worded_iff.2 rfl
      exact ⟨_, .header rfl words fun shape hshape => h ⟨shape, hshape⟩⟩
  · exact ⟨_, .remark hhead⟩

theorem unique (h : Shaped line shape) (h' : Shaped line shape') : shape = shape' := by
  cases h with
  | remark hhead =>
    cases h' with
    | remark => rfl
    | recognised eq _ => exact absurd (congrArg List.head? eq) hhead
    | header eq _ _ => exact absurd (congrArg List.head? eq) hhead
  | recognised eq h =>
    cases h' with
    | remark hhead => exact absurd (congrArg List.head? eq) hhead
    | recognised eq' h' =>
      cases eq.symm.trans eq'
      exact h.unique h'
    | header eq' _ hnone =>
      cases eq.symm.trans eq'
      exact absurd h (hnone _)
  | header eq words hnone =>
    cases h' with
    | remark hhead => exact absurd (congrArg List.head? eq) hhead
    | recognised eq' h' =>
      cases eq.symm.trans eq'
      exact absurd h' (hnone _)
    | header eq' words' _ =>
      cases eq.symm.trans eq'
      cases (worded_iff.1 words).symm.trans (worded_iff.1 words')
      rfl

end Shaped

/-! ## What shapes mean -/

namespace LineShape

variable {result : Except LineFault (Token Float)}

theorem ofText?_of_digits {a b : Char} {high low : Digit} (hhigh : Digit.ofChar? a = some high)
    (hlow : Digit.ofChar? b = some low) : BpmId.ofText? [a, b] = some (.ofDigits high low) := by
  change (do return BpmId.ofDigits (← Digit.ofChar? a) (← Digit.ofChar? b)) = _
  rw [hhigh, hlow]
  rfl

theorem ofText?_of_not_digit {a b : Char} (h : Digit.ofChar? a = none ∨ Digit.ofChar? b = none) :
    BpmId.ofText? [a, b] = none := by
  change (do return BpmId.ofDigits (← Digit.ofChar? a) (← Digit.ofChar? b)) = _
  rcases h with h | h
  · rw [h]
    rfl
  · rw [h]
    cases Digit.ofChar? a <;> rfl

theorem means_bpmDefinition_iff {a b : Char} {value : List Char} :
    (bpmDefinition a b value).Means result ↔ Token.ofBpm [a, b] value = result := by
  unfold Token.ofBpm
  constructor
  · intro h
    cases h with
    | bpmDefinition high_digit low_digit finite =>
      rw [ofText?_of_digits high_digit low_digit, finite]
      rfl
    | notAnId _ h => rw [ofText?_of_not_digit h]
    | noBpm high_digit low_digit h =>
      obtain ⟨high, hhigh⟩ := Option.isSome_iff_exists.1 high_digit
      obtain ⟨low, hlow⟩ := Option.isSome_iff_exists.1 low_digit
      rw [ofText?_of_digits hhigh hlow, h]
      rfl
  · rintro rfl
    by_cases hnone : Digit.ofChar? a = none ∨ Digit.ofChar? b = none
    · rw [ofText?_of_not_digit hnone]
      exact .notAnId value hnone
    · obtain ⟨ha, hb⟩ := not_or.1 hnone
      obtain ⟨high, hhigh⟩ := Option.ne_none_iff_exists'.1 ha
      obtain ⟨low, hlow⟩ := Option.ne_none_iff_exists'.1 hb
      rw [ofText?_of_digits hhigh hlow]
      cases hvalue : Decimal.finite? value with
      | none => exact .noBpm (hhigh ▸ rfl) (hlow ▸ rfl) hvalue
      | some bpm => exact .bpmDefinition hhigh hlow hvalue

theorem means_waveOffset_iff {args : List Char} : (waveOffset args).Means result ↔
    (Token.number "decimal seconds" ((firstWord? args).bind Decimal.finite?)).map .waveOffset =
      result := by
  constructor
  · intro h
    cases h with
    | waveOffset first finite =>
      rw [firstWord?_eq_some_iff.2 first, Option.bind_some, finite]
      rfl
    | noSeconds h =>
      cases hfirst : firstWord? args with
      | none => rfl
      | some word =>
        rw [Option.bind_some, h word (firstWord?_eq_some_iff.1 hfirst)]
        rfl
  · rintro rfl
    cases hfirst : firstWord? args with
    | none =>
      refine .noSeconds fun word hword => ?_
      rw [firstWord?_eq_some_iff.2 hword] at hfirst
      cases hfirst
    | some word =>
      rw [Option.bind_some]
      cases hvalue : Decimal.finite? word with
      | none =>
        refine .noSeconds fun word' hword' => ?_
        rw [firstWord?_eq_some_iff.2 hword'] at hfirst
        rw [Option.some.inj hfirst, hvalue]
      | some seconds => exact .waveOffset (firstWord?_eq_some_iff.1 hfirst) hvalue

theorem means_fact_iff {f : SongFact} {args : List Char} : (fact f args).Means result ↔
    .ok (f.token (String.ofList (unquote args))) = result := by
  constructor
  · intro h
    cases h with
    | fact _ h => rw [unquoted_iff.1 h]
  · rintro rfl
    exact .fact f (unquoted_iff.2 rfl)

theorem means_beatsPerMeasure_iff {track : Track} {value : List Char} :
    (beatsPerMeasure track value).Means result ↔
      (Token.number "decimal beats per measure" (Decimal.finite? value)).map (.beatsPerMeasure track) =
        result := by
  constructor
  · intro h
    cases h with
    | beatsPerMeasure _ finite =>
      rw [finite]
      rfl
    | noBeats _ h =>
      rw [h]
      rfl
  · rintro rfl
    cases hvalue : Decimal.finite? value with
    | none => exact .noBeats track hvalue
    | some beats => exact .beatsPerMeasure track hvalue

theorem means_message_iff {track : Track} {channel : Channel} {payload : List Char} :
    (message track channel payload).Means result ↔
      .ok (.message track channel (String.ofList payload)) = result := by
  constructor
  · intro h
    cases h
    rfl
  · rintro rfl
    exact .message track channel payload

theorem means_header_iff {name args : List Char} : (header name args).Means result ↔
    .ok (.header (String.ofList name) (String.ofList args)) = result := by
  constructor
  · intro h
    cases h
    rfl
  · rintro rfl
    exact .header name args

end LineShape

/-! ## Commands are read by their shape -/

section Commands

variable {command : List Char} {shape : LineShape} {result : Except LineFault (Token Float)}

open Token

theorem bpmShape?_eq_none (h : ∀ a b value, ¬ Recognised command (.bpmDefinition a b value)) :
    bpmShape? command = none := by
  cases hshape : bpmShape? command with
  | none => rfl
  | some parts =>
    obtain ⟨a, b, -, hrecognised⟩ := bpmShape?_eq_some_iff.1 hshape
    exact absurd hrecognised (h a b parts.2)

/-- A command that can only be a message gets that far. -/
theorem ofCommand_eq_ofOther (h : ∀ shape, Recognised command shape → shape.kind = .addressed) :
    ofCommand command = ofOther command := by
  have words : Worded command (nameAndArgs command).1 (nameAndArgs command).2 := worded_iff.2 rfl
  have hbpm : bpmShape? command = none := bpmShape?_eq_none fun a b value hr => nomatch h _ hr
  have hwave : String.ofList (upper (nameAndArgs command).1) ≠ "WAVEOFFSET" :=
    fun hkeyword => nomatch h _ (.waveOffset words hkeyword)
  have hfact (f : SongFact) : String.ofList (upper (nameAndArgs command).1) ≠ f.keyword :=
    fun hkeyword => nomatch h _ (.fact words hkeyword)
  unfold ofCommand
  rw [hbpm]
  dsimp only
  rw [if_neg hwave]
  exact (if_neg (hfact .title)).trans ((if_neg (hfact .artist)).trans (if_neg (hfact .designer)))

theorem Recognised.means_iff (h : Recognised command shape) :
    shape.Means result ↔ ofCommand command = result := by
  have hkind {other : LineShape} (hother : Recognised command other) : other.kind = shape.kind :=
    hother.kind_eq h
  cases h with
  | @bpmDefinition b p m high low value eq keyword high_ne low_ne =>
    have hshape : bpmShape? command = some ([high, low], value) :=
      bpmShape?_eq_some_iff.2 ⟨high, low, rfl, .bpmDefinition eq keyword high_ne low_ne⟩
    rw [LineShape.means_bpmDefinition_iff]
    unfold ofCommand
    rw [hshape]
  | waveOffset words keyword =>
    have hbpm : bpmShape? command = none := bpmShape?_eq_none fun a b value hr => nomatch hkind hr
    rw [LineShape.means_waveOffset_iff]
    unfold ofCommand
    rw [hbpm, worded_iff.1 words]
    dsimp only
    rw [if_pos keyword]
  | @fact name args fact words keyword =>
    have hbpm : bpmShape? command = none := bpmShape?_eq_none fun a b value hr => nomatch hkind hr
    rw [LineShape.means_fact_iff]
    unfold ofCommand
    rw [hbpm, worded_iff.1 words]
    dsimp only
    rw [keyword]
    cases fact <;> rfl
  | beatsPerMeasure address =>
    rw [LineShape.means_beatsPerMeasure_iff, ofCommand_eq_ofOther fun other => hkind]
    unfold ofOther
    rw [messageShape?_eq_some_iff.2 ⟨_, address, rfl⟩]
    rfl
  | message address channel_ne nonempty alphanumeric known =>
    rw [LineShape.means_message_iff, ofCommand_eq_ofOther fun other => hkind]
    unfold ofOther
    rw [messageShape?_eq_some_iff.2 ⟨_, address, rfl⟩]
    dsimp only
    rw [if_neg channel_ne, if_pos ⟨nonempty, alphanumeric⟩, known]

theorem ofCommand_of_not_recognised {name args : List Char} (words : Worded command name args)
    (h : ∀ shape, ¬ Recognised command shape) :
    ofCommand command = .ok (.header (String.ofList name) (String.ofList args)) := by
  rw [ofCommand_eq_ofOther fun shape hshape => absurd hshape (h shape)]
  unfold ofOther
  rw [worded_iff.1 words]
  dsimp only
  split
  · next hshape =>
    obtain ⟨rest, address, rfl⟩ := messageShape?_eq_some_iff.1 hshape
    split
    · next hchannel =>
      rw [hchannel] at address
      exact absurd (.beatsPerMeasure address) (h _)
    · next hchannel =>
      split
      · next hpayload =>
        split
        · next hknown => exact absurd (.message address hchannel hpayload.1 hpayload.2 hknown) (h _)
        · rfl
      · rfl
  · rfl

/-- A line of some shape is read as the shape means. -/
theorem Shaped.means_iff {line : List Char} (h : Shaped line shape) :
    shape.Means result ↔ ofLine line = result := by
  cases h with
  | remark hhead =>
    have hline : ofLine line = .ok (.remark (String.ofList line)) := by
      unfold ofLine
      split
      · exact absurd rfl hhead
      · rfl
    rw [hline]
    constructor
    · intro h
      cases h
      rfl
    · rintro rfl
      exact .remark line
  | recognised eq h =>
    rw [eq]
    exact h.means_iff
  | header eq words hnone =>
    rw [eq, LineShape.means_header_iff]
    change _ ↔ ofCommand _ = _
    rw [ofCommand_of_not_recognised words hnone]

theorem ofLine_eq_iff {line : List Char} :
    ofLine line = result ↔ ∃ shape, Shaped line shape ∧ shape.Means result := by
  constructor
  · intro h
    obtain ⟨shape, hshape⟩ := Shaped.exists_shaped line
    exact ⟨shape, hshape, hshape.means_iff.2 h⟩
  · rintro ⟨shape, hshape, hmeans⟩
    exact hshape.means_iff.1 hmeans

end Commands

/-- Only a line without a number sign in front says a remark. -/
theorem ofLine_eq_remark_iff {line : List Char} :
    Token.ofLine line = .ok (.remark (String.ofList line)) ↔ line.head? ≠ some '#' := by
  constructor
  · intro h
    obtain ⟨shape, hshape, hmeans⟩ := ofLine_eq_iff.1 h
    generalize hresult : (Except.ok (.remark (String.ofList line)) : Except LineFault (Token Float)) =
      result at hmeans
    cases hmeans with
    | remark text =>
      cases hshape with
      | remark hhead => exact hhead
      | recognised _ h => cases h
    | fact fact _ => cases fact <;> cases hresult
    | _ => cases hresult
  · intro hhead
    exact ofLine_eq_iff.2 ⟨_, .remark hhead, .remark line⟩

theorem Token.read_eq_ok_iff {l : Line} {t : Spanned (Token Float)} :
    read l = .ok t ↔ t.span = l.span ∧ ofLine l.text = .ok t.content := by
  constructor
  · intro h
    exact (read_eq_ok h).symm
  · rintro ⟨hspan, hline⟩
    rw [read, hline, ← hspan]

theorem Token.read_eq_error_iff {l : Line} {e : Spanned LexError} :
    read l = .error e ↔ e.span = l.span ∧ e.content.line = l.number ∧
      ofLine l.text = .error e.content.fault := by
  unfold read
  constructor
  · intro h
    split at h
    · cases h
    · next hline =>
      cases h
      exact ⟨rfl, rfl, hline⟩
  · rintro ⟨hspan, hnumber, hline⟩
    rw [hline, ← hspan, ← hnumber]

/-- Each line has exactly one shape.  It is read as the shape means, with its own place: as a token, or as
the fault of its value.  Remarks are the lines without a number sign in front. -/
theorem read_classified (l : Line) :
    (∃! shape, Shaped l.text shape) ∧
      (∀ token, Token.read l = .ok token ↔
        token.span = l.span ∧ ∃ shape, Shaped l.text shape ∧ shape.Means (.ok token.content)) ∧
      (∀ error, Token.read l = .error error ↔
        error.span = l.span ∧ error.content.line = l.number ∧
          ∃ shape, Shaped l.text shape ∧ shape.Means (.error error.content.fault)) ∧
      (Token.read l = .ok ⟨.remark (String.ofList l.text), l.span⟩ ↔ l.text.head? ≠ some '#') := by
  obtain ⟨shape, hshape⟩ := Shaped.exists_shaped l.text
  refine ⟨⟨shape, hshape, fun other hother => hother.unique hshape⟩, fun token => ?_, fun error => ?_, ?_⟩
  · rw [Token.read_eq_ok_iff, ofLine_eq_iff]
  · rw [Token.read_eq_error_iff, ofLine_eq_iff]
  · rw [Token.read_eq_ok_iff, ofLine_eq_remark_iff]
    exact and_iff_right rfl

end RhythmChart
