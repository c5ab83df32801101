import RhythmChart.Proofs.LetterCase
import RhythmChart.Proofs.Source.Concatenation
import RhythmChart.Proofs.Source.Printed

/-!
# Channels of decoded messages

A text is read as a channel whose objects are decoded just if it begins like the printed channel, in either case
of letters (`Channel.ofText?_eq_some_iff`).  The text of a BPM change ends there.  Behind a tap or a slide
further letters and digits are passed over, so such a text is the printed channel up to letter case only if it
has no more characters (`Token.scan_decoded`).
-/

namespace RhythmChart

open Text

/-! ## Prefixes in either case -/

theorem Text.cons_isPrefix_upper_iff {c : Char} {s t : List Char} :
    c :: t <+: upper s ↔ ∃ a r, s = a :: r ∧ a.toUpper = c ∧ t <+: upper r := by
  cases s with
  | nil => simp [upper]
  | cons a r =>
    change c :: t <+: a.toUpper :: upper r ↔ _
    rw [List.cons_prefix_cons]
    constructor
    · rintro ⟨rfl, h⟩
      exact ⟨a, r, rfl, rfl, h⟩
    · rintro ⟨_, _, heq, rfl, h⟩
      cases heq
      exact ⟨rfl, h⟩

/-! ## Texts of a channel -/

namespace Channel

/-- The objects on the channel are decoded. -/
inductive IsDecoded : Channel → Prop
  | bpmChange : IsDecoded .bpmChange
  | tap (lane : Nat) : IsDecoded (.tap lane)
  | slide (lane channel : Nat) : IsDecoded (.slide lane channel)

/-- The text begins like the printed channel, in either case of letters.  That of a BPM change has no other
characters. -/
structure Heads (c : Channel) (s : List Char) : Prop where
  printable : c.Printable
  begins : c.text <+: Text.upper s
  whole : c = .bpmChange → s = c.text

/-- A digit of a channel is printed as its character in upper case. -/
theorem digit_val (d : Digit) : digit d.val = d.toChar := by
  rw [digit, Digit.char?, dif_pos d.isLt]
  rfl

variable {s : List Char}

theorem exists_of_getElem?_bind {i : Nat} {d : Digit} (h : s[i]?.bind Digit.ofChar? = some d) :
    ∃ a, s[i]? = some a ∧ a.toUpper = digit d.val := by
  obtain ⟨a, ha, hd⟩ := Option.bind_eq_some_iff.1 h
  exact ⟨a, ha, by rw [digit_val, Digit.ofChar?_eq_some_iff.1 hd]⟩

theorem Heads.of_ofText? {c : Channel} (hc : c.IsDecoded) (h : ofText? s = some c) : c.Heads s := by
  unfold ofText? at h
  split at h
  · cases h
  · next s =>
    split at h
    · cases h
      cases hc
    · split at h
      · next hs =>
        cases h
        rw [hs]
        exact ⟨.bpmChange, by decide, fun _ => rfl⟩
      · split at h
        · cases h
        · cases h
          cases hc
  · next s =>
    obtain ⟨lane, hlane, h⟩ := Option.bind_eq_some_iff.1 h
    cases h
    obtain ⟨a, ha, hdigit⟩ := exists_of_getElem?_bind hlane
    refine ⟨.tap (Nat.le_of_lt_succ lane.isLt), ?_, nofun⟩
    cases s with
    | nil => cases ha
    | cons b r =>
      cases ha
      exact cons_isPrefix_upper_iff.2 ⟨'1', _, rfl, by decide,
        cons_isPrefix_upper_iff.2 ⟨a, r, rfl, hdigit, List.nil_prefix⟩⟩
  · next s =>
    obtain ⟨lane, hlane, h⟩ := Option.bind_eq_some_iff.1 h
    obtain ⟨channel, hchannel, h⟩ := Option.bind_eq_some_iff.1 h
    cases h
    obtain ⟨a, ha, hdigit⟩ := exists_of_getElem?_bind hlane
    obtain ⟨b, hb, hdigit'⟩ := exists_of_getElem?_bind hchannel
    refine ⟨.slide (Nat.le_of_lt_succ lane.isLt) (Nat.le_of_lt_succ channel.isLt), ?_, nofun⟩
    match s, ha, hb with
    | _ :: _ :: r, rfl, rfl =>
      exact cons_isPrefix_upper_iff.2 ⟨'3', _, rfl, by decide,
        cons_isPrefix_upper_iff.2 ⟨a, _, rfl, hdigit,
          cons_isPrefix_upper_iff.2 ⟨b, r, rfl, hdigit', List.nil_prefix⟩⟩⟩
  · split at h
    · cases h
      cases hc
    · cases h

theorem ofChar?_of_toUpper {a : Char} {n : Nat} (hn : n ≤ 35) (h : a.toUpper = digit n) :
    ∃ d, Digit.ofChar? a = some d ∧ d.val = n := by
  obtain ⟨d, hd, hdigit⟩ := exists_digit_eq hn
  exact ⟨d, Digit.ofChar?_eq_some_iff.2 (h.trans hdigit), hd⟩

theorem Heads.ofText? {c : Channel} (h : c.Heads s) : ofText? s = some c := by
  obtain ⟨hprintable, hbegins, hwhole⟩ := h
  cases hprintable with
  | bpmChange =>
    rw [hwhole rfl]
    rfl
  | tap hlane =>
    obtain ⟨k, _, rfl, hk, hrest⟩ := cons_isPrefix_upper_iff.1 hbegins
    obtain ⟨a, r, rfl, ha, -⟩ := cons_isPrefix_upper_iff.1 hrest
    obtain ⟨lane, hdigit, rfl⟩ := ofChar?_of_toUpper hlane ha
    rw [(toUpper_eq_iff (by decide)).1 hk, ofText?_one]
    change (Digit.ofChar? a).bind _ = _
    rw [hdigit]
    rfl
  | slide hlane hchannel =>
    obtain ⟨k, _, rfl, hk, hrest⟩ := cons_isPrefix_upper_iff.1 hbegins
    obtain ⟨a, _, rfl, ha, hrest⟩ := cons_isPrefix_upper_iff.1 hrest
    obtain ⟨b, r, rfl, hb, -⟩ := cons_isPrefix_upper_iff.1 hrest
    obtain ⟨lane, hdigit, rfl⟩ := ofChar?_of_toUpper hlane ha
    obtain ⟨channel, hdigit', rfl⟩ := ofChar?_of_toUpper hchannel hb
    rw [(toUpper_eq_iff (by decide)).1 hk, ofText?_three]
    change (Digit.ofChar? a).bind (fun lane => (Digit.ofChar? b).bind _) = _
    rw [hdigit, hdigit']
    rfl

/-- A text is read as a decoded channel just if it begins like it. -/
theorem ofText?_eq_some_iff {c : Channel} (hc : c.IsDecoded) : Channel.ofText? s = some c ↔ c.Heads s :=
  ⟨.of_ofText? hc, Heads.ofText?⟩

/-! ### Texts without further characters -/

/-- A printed channel is in upper case. -/
theorem Printable.upper_text {c : Channel} (h : c.Printable) : Text.upper c.text = c.text := by
  have hdigit {n : Nat} (hn : n ≤ 35) : (digit n).toUpper = digit n := by
    obtain ⟨d, -, htext⟩ := exists_digit_eq hn
    rw [htext]
    clear htext
    revert d
    decide
  cases h with
  | bpmChange => decide
  | tap hlane => rw [text, Text.upper, List.map_cons, List.map_cons, hdigit hlane]; rfl
  | slide hlane hchannel =>
    rw [text, Text.upper, List.map_cons, List.map_cons, List.map_cons, hdigit hlane, hdigit hchannel]
    rfl

theorem Printable.sameLetters_iff {c : Channel} (h : c.Printable) :
    SameLetters s c.text ↔ Text.upper s = c.text := by
  rw [Text.sameLetters_iff, h.upper_text]

theorem Heads.sameLetters_iff {c : Channel} (h : c.Heads s) :
    SameLetters s c.text ↔ s.length ≤ c.text.length := by
  rw [h.printable.sameLetters_iff, ← length_upper s]
  constructor
  · intro heq
    rw [heq]
  · exact fun hle => (h.begins.eq_of_length_le hle).symm

theorem Printable.heads_of_sameLetters {c : Channel} (hc : c.Printable) (h : SameLetters s c.text) :
    c.Heads s := by
  rw [hc.sameLetters_iff] at h
  refine ⟨hc, h ▸ List.prefix_rfl, fun heq => ?_⟩
  subst heq
  exact (upper_eq_iff s (by simp [text])).1 h

end Channel

/-! ## Messages -/

namespace Token

/-- A line that says a message has three digits and the text of its channel in front of a colon. -/
theorem exists_addressed {line : List Char} {track : Track} {channel : Channel} {payload : String}
    (h : ofLine line = .ok (.message track channel payload)) :
    ∃ command text rest, line = '#' :: command ∧ Addressed command track text rest ∧
      Channel.ofText? text = some channel := by
  obtain ⟨shape, hshape, hmeans⟩ := ofLine_eq_iff.1 h
  generalize hresult : (Except.ok (.message track channel payload) : Except LineFault (Token Float)) =
    result at hmeans
  cases hmeans with
  | message =>
    cases hresult
    cases hshape with
    | recognised eq h =>
      cases h with
      | message address _ _ _ known => exact ⟨_, _, _, eq, address, known⟩
  | fact fact _ => cases fact <;> cases hresult
  | _ => cases hresult

/-- Between the digits of the track and the colon, the line of a decoded message begins with the printed channel
in either case of letters, and a BPM change has nothing else there.  All texts like that are read as the
channel.  They are the printed channel up to letter case just if they have no further characters. -/
theorem scan_decoded {source : List Char} {ts : List (Spanned (Token Float))} (h : scan source = .ok ts)
    {track : Track} {channel : Channel} {payload : String} {span : Span}
    (ht : ⟨.message track channel payload, span⟩ ∈ ts) (hdecoded : channel.IsDecoded) :
    (∃ p command text rest, IsLineAt source p span ∧ trim p.text = '#' :: command ∧
      Addressed command track text rest ∧ channel.Heads text) ∧
      (∀ text, Channel.ofText? text = some channel ↔ channel.Heads text) ∧
      ∀ text, SameLetters text channel.text ↔
        Channel.ofText? text = some channel ∧ text.length ≤ channel.text.length := by
  obtain ⟨p, hline, hread⟩ := exists_isLineAt h ht
  obtain ⟨command, text, rest, hcommand, haddress, hknown⟩ := exists_addressed hread.content
  have hheads : channel.Heads text := (Channel.ofText?_eq_some_iff hdecoded).1 hknown
  refine ⟨⟨p, command, text, rest, hline, hcommand, haddress, hheads⟩,
    fun _ => Channel.ofText?_eq_some_iff hdecoded, fun other => ?_⟩
  rw [Channel.ofText?_eq_some_iff hdecoded]
  constructor
  · intro hsame
    have hother := hheads.printable.heads_of_sameLetters hsame
    exact ⟨hother, hother.sameLetters_iff.1 hsame⟩
  · rintro ⟨hother, hle⟩
    exact hother.sameLetters_iff.2 hle

/-- A slide with a further character, and a BPM change.  Without that character the text is the printed channel
up to letter case. -/
theorem scan_decoded_of_slide :
    scan "#0003aZ9:12\n#00108:01".toList =
        .ok [⟨.message ⟨0⟩ (.slide 10 35) "12", ⟨0, 11⟩⟩, ⟨.message ⟨1⟩ .bpmChange "01", ⟨12, 21⟩⟩] ∧
      (∃ p command text rest, IsLineAt "#0003aZ9:12\n#00108:01".toList p ⟨0, 11⟩ ∧
        trim p.text = '#' :: command ∧ Addressed command ⟨0⟩ text rest ∧ (Channel.slide 10 35).Heads text) ∧
      (Channel.slide 10 35).Heads "3aZ9".toList ∧ ¬ SameLetters "3aZ9".toList (Channel.slide 10 35).text ∧
      SameLetters "3aZ".toList (Channel.slide 10 35).text := by
  have h : scan "#0003aZ9:12\n#00108:01".toList =
      .ok [⟨.message ⟨0⟩ (.slide 10 35) "12", ⟨0, 11⟩⟩, ⟨.message ⟨1⟩ .bpmChange "01", ⟨12, 21⟩⟩] := by
    cbv
  obtain ⟨hline, hread, hsame⟩ := scan_decoded h List.mem_cons_self (.slide 10 35)
  refine ⟨h, hline, (hread _).1 (by decide), fun hother => ?_, (hsame _).2 (by decide)⟩
  exact absurd ((hsame _).1 hother).2 (by decide)

/-- The text of the tap has two characters more than the printed channel, and it is read as the same channel as
the text without them. -/
theorem scan_decoded_ne : ∃ ts, scan "#BPM01:60\n#00008:01\n#0001abc:12\n".toList = .ok ts ∧
    ⟨.message ⟨0⟩ (.tap 10) "12", ⟨20, 31⟩⟩ ∈ ts ∧
    Addressed "0001abc:12".toList ⟨0⟩ "1abc".toList "12".toList ∧
    ¬ SameLetters "1abc".toList (Channel.tap 10).text ∧
    Channel.ofText? "1abc".toList = Channel.ofText? "1a".toList ∧ ¬ SameLetters "1abc".toList "1a".toList := by
  have hdefinition := @scan_bpmDefinitionText ⟨1⟩ "60" ⟨false, 60, 0⟩ (by decide) (by decide +kernel)
  have hmessages : scan "#00008:01\n#0001abc:12\n".toList =
      .ok [⟨.message ⟨0⟩ .bpmChange "01", ⟨0, 9⟩⟩, ⟨.message ⟨0⟩ (.tap 10) "12", ⟨10, 21⟩⟩] := by
    cbv
  have hscan := scan_append (bpmDefinitionText ⟨1⟩ "60").toList "#00008:01\n#0001abc:12\n".toList
  rw [hdefinition, hmessages] at hscan
  have hmem : ⟨.message ⟨0⟩ (.tap 10) "12", ⟨20, 31⟩⟩ ∈
      [⟨.message ⟨0⟩ .bpmChange "01", ⟨0, 9⟩⟩, ⟨.message ⟨0⟩ (.tap 10) "12", ⟨10, 21⟩⟩].map
        fun t : Spanned (Token Float) => t.shift (byteLength (bpmDefinitionText ⟨1⟩ "60").toList + 1) :=
    List.mem_cons_of_mem _ List.mem_cons_self
  refine ⟨_, hscan, List.mem_append_right _ hmem, ?_, ?_, by decide, ?_⟩
  · exact @Addressed.mk _ '0' '0' '0' "1abc".toList "12".toList rfl rfl (by decide) rfl
  · rw [sameLetters_iff]
    decide
  · rw [sameLetters_iff]
    decide

end Token

end RhythmChart
