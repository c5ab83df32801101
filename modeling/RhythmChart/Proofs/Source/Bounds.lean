import RhythmChart.Proofs.Source.Lines

/-!
# Bounds of what lines say

A line names a track by three digits, and a lane or a channel by one digit of base 36.  So the tokens of
a text are bounded (`bounded_of_scan`), which tokens of any origin need not be.  And the payload of a
message stands in the text, so it is no longer (`length_payload_le`).
-/

namespace RhythmChart

/-- Lanes and channels are digits. -/
def Channel.Bounded : Channel → Prop
  | .tap lane => lane < 36
  | .slide lane channel => lane < 36 ∧ channel < 36
  | _ => True

theorem Channel.bounded_of_ofText? {s : List Char} {c : Channel} (h : ofText? s = some c) :
    c.Bounded := by
  unfold ofText? at h
  split at h
  · cases h
  · split at h
    · cases h
      trivial
    · split at h
      · cases h
        trivial
      · split at h
        · cases h
        · cases h
          trivial
  · obtain ⟨lane, -, h⟩ := Option.bind_eq_some_iff.1 h
    cases h
    exact lane.isLt
  · obtain ⟨lane, -, h⟩ := Option.bind_eq_some_iff.1 h
    obtain ⟨channel, -, h⟩ := Option.bind_eq_some_iff.1 h
    cases h
    exact ⟨lane.isLt, channel.isLt⟩
  · split at h
    · cases h
      trivial
    · cases h

theorem Decimal.ofDigits_lt {a b c : Char} (h : [a, b, c].all Char.isDigit = true) :
    ofDigits [a, b, c] < 1000 := by
  have hdigit {d : Char} (hd : d.isDigit = true) : d.toNat - 48 ≤ 9 := by
    have := (Bool.and_eq_true_iff.1 hd).2
    have : d.toNat ≤ 57 := of_decide_eq_true this
    omega
  simp only [List.all_cons, List.all_nil, Bool.and_true, Bool.and_eq_true] at h
  obtain ⟨ha, hb, hc⟩ := h
  have := hdigit ha
  have := hdigit hb
  have := hdigit hc
  simp only [ofDigits, List.foldl_cons, List.foldl_nil]
  omega

namespace Token

/-- Tracks have three digits, lanes and channels have one. -/
def Bounded : Token Float → Prop
  | .beatsPerMeasure track _ => track.number < 1000
  | .message track channel _ => track.number < 1000 ∧ channel.Bounded
  | _ => True

theorem number_lt_of_messageShape? {command channel payload : List Char} {track : Track}
    (h : messageShape? command = some (track, channel, payload)) : track.number < 1000 := by
  unfold messageShape? at h
  split at h
  · split at h
    · split at h
      · next hshape =>
        cases h
        exact Decimal.ofDigits_lt hshape.1
      · cases h
    · cases h
  · cases h

theorem bounded_map_number {what : String} {v : Option (Finite Float)} {f : Finite Float → Token Float}
    {t : Token Float} (h : (number what v).map f = .ok t) (hf : ∀ x, (f x).Bounded) : t.Bounded := by
  cases v with
  | none => cases h
  | some v =>
    cases h
    exact hf v

theorem bounded_of_ofOther {command : List Char} {t : Token Float} (h : ofOther command = .ok t) :
    t.Bounded := by
  unfold ofOther at h
  dsimp only at h
  split at h
  · next hshape =>
    have htrack := number_lt_of_messageShape? hshape
    split at h
    · exact bounded_map_number h fun _ => htrack
    · split at h
      · split at h
        · next hchannel =>
          cases h
          exact ⟨htrack, Channel.bounded_of_ofText? hchannel⟩
        · cases h
          trivial
      · cases h
        trivial
  · cases h
    trivial

theorem bounded_of_ofBpm {id value : List Char} {t : Token Float} (h : ofBpm id value = .ok t) :
    t.Bounded := by
  unfold ofBpm at h
  split at h
  · exact bounded_map_number h fun _ => trivial
  · cases h

theorem bounded_of_ofCommand {command : List Char} {t : Token Float} (h : ofCommand command = .ok t) :
    t.Bounded := by
  unfold ofCommand at h
  dsimp only at h
  split at h
  · exact bounded_of_ofBpm h
  · split at h
    · exact bounded_map_number h fun _ => trivial
    · split at h
      · cases h
        trivial
      · split at h
        · cases h
          trivial
        · split at h
          · cases h
            trivial
          · exact bounded_of_ofOther h

theorem bounded_of_ofLine {line : List Char} {t : Token Float} (h : ofLine line = .ok t) :
    t.Bounded := by
  unfold ofLine at h
  split at h
  · exact bounded_of_ofCommand h
  · cases h
    trivial

theorem bounded_of_scan {source : List Char} {ts : List (Spanned (Token Float))}
    (h : scan source = .ok ts) {t : Spanned (Token Float)} (ht : t ∈ ts) : t.content.Bounded := by
  obtain ⟨p, -, hread⟩ := exists_read_eq h ht
  exact bounded_of_ofLine (read_eq_ok hread).1

/-! ## The length of a payload -/

section Message

variable {track : Track} {channel : Channel} {payload : String}

theorem map_number_ne_message {what : String} {v : Option (Finite Float)}
    {f : Finite Float → Token Float} (hf : ∀ x, f x ≠ .message track channel payload) :
    (number what v).map f ≠ .ok (.message track channel payload) := by
  cases v with
  | none => exact nofun
  | some v => exact fun heq => hf v (Except.ok.inj heq)

theorem messageShape?_of_ofOther {command : List Char}
    (h : ofOther command = .ok (.message track channel payload)) :
    ∃ text, messageShape? command = some (track, text, payload.toList) := by
  unfold ofOther at h
  dsimp only at h
  split at h
  · next hshape =>
    split at h
    · exact absurd h (map_number_ne_message fun _ => nofun)
    · split at h
      · split at h
        · cases h
          exact ⟨_, by rw [hshape, String.toList_ofList]⟩
        · cases h
      · cases h
  · cases h

/-- Neither a BPM definition nor a named command says a message. -/
theorem ofOther_of_ofCommand {command : List Char}
    (h : ofCommand command = .ok (.message track channel payload)) :
    ofOther command = .ok (.message track channel payload) := by
  unfold ofCommand ofBpm at h
  dsimp only at h
  split at h
  · split at h
    · exact absurd h (map_number_ne_message fun _ => nofun)
    · cases h
  · split at h
    · exact absurd h (map_number_ne_message fun _ => nofun)
    · split at h
      · cases h
      · split at h
        · cases h
        · split at h
          · cases h
          · exact h

/-- A line that says a message has the shape of one. -/
theorem exists_messageShape? {line : List Char}
    (h : ofLine line = .ok (.message track channel payload)) :
    ∃ command text, line = '#' :: command ∧
      messageShape? command = some (track, text, payload.toList) := by
  unfold ofLine at h
  split at h
  · next command =>
    obtain ⟨text, hshape⟩ := messageShape?_of_ofOther (ofOther_of_ofCommand h)
    exact ⟨command, text, rfl, hshape⟩
  · cases h

end Message

theorem length_of_cut? {p : Char → Bool} {s before after : List Char}
    (h : Text.cut? p s = some (before, after)) : before.length + after.length + 1 = s.length := by
  induction s generalizing before with
  | nil => cases h
  | cons c s ih =>
    unfold Text.cut? at h
    split at h
    · cases h
      simp
    · obtain ⟨⟨_, _⟩, hcut, heq⟩ := Option.map_eq_some_iff.1 h
      cases heq
      have := ih hcut
      simp only [List.length_cons]
      omega

theorem length_trim_le (s : List Char) : (Text.trim s).length ≤ s.length := by
  obtain ⟨trail, htrim⟩ := Text.exists_trimmed s
  have := congrArg List.length htrim.eq
  simp only [List.length_append] at this
  omega

theorem length_le_of_messageShape? {command channel payload : List Char} {track : Track}
    (h : messageShape? command = some (track, channel, payload)) : payload.length ≤ command.length := by
  unfold messageShape? at h
  split at h
  · next head text hcut =>
    split at h
    · split at h
      · cases h
        have := length_of_cut? hcut
        have := length_trim_le text
        omega
      · cases h
    · cases h
  · cases h

/-- The payload of a message is no longer than the text. -/
theorem length_payload_le {source : List Char} {ts : List (Spanned (Token Float))}
    (h : scan source = .ok ts) {track : Track} {channel : Channel} {payload : String} {span : Span}
    (ht : ⟨.message track channel payload, span⟩ ∈ ts) : payload.toList.length ≤ source.length := by
  obtain ⟨p, hp, hread⟩ := exists_read_eq h ht
  obtain ⟨command, text, hline, hshape⟩ := exists_messageShape? (read_eq_ok hread).1
  obtain ⟨before, after, hsource, -⟩ := Text.exists_append_of_mem_pieces (List.mem_of_mem_filter hp)
  have htrim : Text.trim p.text = '#' :: command := hline
  calc payload.toList.length ≤ command.length := length_le_of_messageShape? hshape
    _ ≤ (Text.trim p.text).length := by rw [htrim, List.length_cons]; omega
    _ ≤ p.text.length := length_trim_le p.text
    _ ≤ source.length := by rw [hsource, List.length_append, List.length_append]; omega

end Token

end RhythmChart
