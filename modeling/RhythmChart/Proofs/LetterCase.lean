import RhythmChart.Proofs.Slots
import RhythmChart.Proofs.Source.LetterCase
import RhythmChart.Proofs.Stages

/-!
# Charts up to letter case

Reading a chart does not tell the letters `a` to `z` from `A` to `Z`.  Tokens in upper case come to the same
song with its texts in upper case (`resolve_upper`), and so does a text (`read_upper`).  Texts that are the
same up to letter case are the same in upper case; `read_of_sameLetters` says what follows for what is read
from them.
-/

namespace RhythmChart

open Text

variable {α : Type} [Scalar α]

/-! ## Results in upper case -/

def SongInfo.upper (info : SongInfo α) : SongInfo α where
  title := info.title.map capitals
  artist := info.artist.map capitals
  designer := info.designer.map capitals
  waveOffset := info.waveOffset

/-- The song with its texts in upper case. -/
def Song.upper (song : Song α) : Song α := { song with info := song.info.upper }

def Chart.upper (chart : Chart α) : Chart α := { chart with song := chart.song.upper }

/-- The error with the text that it quotes in upper case. -/
def ChartError.upper : ChartError → ChartError
  | .lex e => .lex (e.map LexError.upper)
  | .parse e => .parse e

/-! ## Parts of a chart -/

namespace Slot

theorem pairs_upper (s : List Char) :
    pairs (Text.upper s) = (pairs s).map (Prod.map Char.toUpper Char.toUpper) := by
  fun_induction pairs s with
  | case1 a b s ih => exact congrArg ((a.toUpper, b.toUpper) :: ·) ih
  | case2 s h =>
    rcases s with _ | ⟨a, _ | ⟨b, s⟩⟩
    · rfl
    · rfl
    · exact absurd rfl (h a b s)

theorem digits?_toUpper (a b : Char) : digits? a.toUpper b.toUpper = digits? a b := by
  rw [digits?, digits?, Digit.ofChar?_toUpper, Digit.ofChar?_toUpper]

theorem decode_upper (measures : MeasureTimeline α) (track : Track) (payload : List Char) :
    decode measures track (Text.upper payload) = decode measures track payload := by
  rw [decode, decode, pairs_upper, length_upper, List.zipIdx_map, List.filterMap_map]
  refine congrArg (List.filterMap · _) (funext fun x => ?_)
  change read? measures track _ _ x.1.1.toUpper x.1.2.toUpper = read? measures track _ _ x.1.1 x.1.2
  rw [read?, read?, digits?_toUpper]
  rfl

/-- A payload in upper case has the same slots. -/
theorem decode_capitals (measures : MeasureTimeline α) (track : Track) (payload : String) :
    decode measures track (capitals payload).toList = decode measures track payload.toList := by
  rw [capitals, String.toList_ofList, decode_upper]

end Slot

namespace Token

variable (measures : MeasureTimeline α) (ts : List (Spanned (Token α)))

theorem beatsDeclarations_upper :
    beatsDeclarations (ts.map (Spanned.map upper)) = beatsDeclarations ts := by
  rw [beatsDeclarations, beatsDeclarations, List.filterMap_map]
  refine congrArg (List.filterMap · ts) (funext fun t => ?_)
  obtain ⟨content, span⟩ := t
  cases content <;> rfl

theorem bpmDeclarations_upper :
    bpmDeclarations (ts.map (Spanned.map upper)) = bpmDeclarations ts := by
  rw [bpmDeclarations, bpmDeclarations, List.filterMap_map]
  refine congrArg (List.filterMap · ts) (funext fun t => ?_)
  obtain ⟨content, span⟩ := t
  cases content <;> rfl

theorem placements_upper :
    placements measures (ts.map (Spanned.map upper)) = placements measures ts := by
  rw [placements_eq_flatMap, placements_eq_flatMap, List.flatMap_map]
  refine congrArg (List.flatMap · ts) (funext fun t => ?_)
  obtain ⟨content, span⟩ := t
  cases content with
  | message track channel payload =>
    cases channel with
    | bpmChange => exact congrArg (Chart.placementsOf span) (Slot.decode_capitals measures track payload)
    | _ => rfl
  | _ => rfl

theorem laneLines_upper :
    laneLines measures (ts.map (Spanned.map upper)) = laneLines measures ts := by
  rw [laneLines, laneLines, List.filterMap_map]
  refine congrArg (List.filterMap · ts) (funext fun t => ?_)
  obtain ⟨content, span⟩ := t
  cases content with
  | message track channel payload =>
    have hslots := Slot.decode_capitals measures track payload
    cases channel with
    | tap lane => exact congrArg (some ∘ LaneLine.taps lane) hslots
    | slide lane channel =>
      exact congrArg (fun slots => some (LaneLine.slides lane channel slots span)) hslots
    | _ => rfl
  | _ => rfl

/-- A fact that tokens in upper case give as some function of it. -/
theorem last?_upper {β : Type} {fact : Token α → Option β} {f : β → β}
    (h : ∀ t : Token α, fact t.upper = (fact t).map f) :
    last? fact (ts.map (Spanned.map upper)) = (last? fact ts).map f := by
  induction ts with
  | nil => rfl
  | cons t ts ih =>
    rw [List.map_cons, last?_cons, last?_cons, ih, Option.map_or]
    exact congrArg _ (h t.content)

theorem songInfo_upper : songInfo (ts.map (Spanned.map upper)) = (songInfo ts).upper := by
  have htitle : last? title? (ts.map (Spanned.map upper)) = (last? title? ts).map capitals :=
    last?_upper ts fun t => by cases t <;> rfl
  have hartist : last? artist? (ts.map (Spanned.map upper)) = (last? artist? ts).map capitals :=
    last?_upper ts fun t => by cases t <;> rfl
  have hdesigner : last? designer? (ts.map (Spanned.map upper)) = (last? designer? ts).map capitals :=
    last?_upper ts fun t => by cases t <;> rfl
  have hoffset : last? waveOffset? (ts.map (Spanned.map upper)) = (last? waveOffset? ts).map id :=
    last?_upper ts fun t => by cases t <;> rfl
  simp only [songInfo, infoFrom, SongInfo.upper, htitle, hartist, hdesigner, hoffset, Option.map_id,
    id, Option.map_or]
  rfl

end Token

/-! ## Reading -/

namespace Chart

variable (prompter : Prompter α)

/-- The texts of a song are copied. -/
theorem assembleSong_upper (measures : MeasureTimeline α) (c : Collected α) :
    assembleSong prompter measures { c with info := c.info.upper } =
      Song.upper <$> assembleSong prompter measures c := by
  unfold assembleSong
  rw [map_bind]
  refine congrArg (_ >>= ·) (funext fun placed => ?_)
  rw [map_bind]
  refine congrArg (_ >>= ·) (funext fun defined => ?_)
  rw [map_bind]
  refine congrArg (_ >>= ·) (funext fun changes => ?_)
  rw [show c.info.upper.waveOffset = c.info.waveOffset from rfl]
  cases BpmTimeline.ofChanges? changes c.info.waveOffset <;> rfl

theorem resolve_upper (ts : List (Spanned (Token α))) :
    resolve prompter (ts.map (Spanned.map Token.upper)) = Song.upper <$> resolve prompter ts := by
  rw [resolve_eq_stages, resolve_eq_stages, map_bind, Token.beatsDeclarations_upper]
  refine congrArg (_ >>= ·) (funext fun beats => ?_)
  rw [map_bind, Token.bpmDeclarations_upper]
  refine congrArg (_ >>= ·) (funext fun defined => ?_)
  rw [Token.songInfo_upper, Token.placements_upper, Token.laneLines_upper, ← assembleSong_upper]

theorem ofTokens_upper (ts : List (Spanned (Token α))) :
    ofTokens prompter (ts.map (Spanned.map Token.upper)) =
      ⟨(ofTokens prompter ts).prompts, (ofTokens prompter ts).result.map Chart.upper⟩ := by
  unfold ofTokens
  rw [resolve_upper, ExceptT.run_map, StateT.run_map]
  obtain ⟨result, log⟩ := (resolve prompter ts).run.run Log.empty
  cases result <;> rfl

/-- A text in upper case is read like the text itself, and comes to the same with its texts in upper case. -/
theorem read_upper (prompter : Prompter Float) (source : List Char) :
    read prompter (Text.upper source) =
      ⟨(read prompter source).prompts,
        ((read prompter source).result.map Chart.upper).mapError ChartError.upper⟩ := by
  unfold read
  rw [Token.scan_upper]
  cases Token.scan source with
  | error e => rfl
  | ok ts =>
    dsimp only [Except.map, Except.mapError]
    rw [ofTokens_upper]
    obtain ⟨prompts, result⟩ := ofTokens prompter ts
    cases result <;> rfl

end Chart

/-! ## Texts that differ in letter case -/

/-- The texts have the same number of characters, and the same characters up to the case of the letters `A`
to `Z`. -/
def Text.SameLetters (s t : List Char) : Prop := List.Forall₂ (fun c d => c.toUpper = d.toUpper) s t

theorem Text.sameLetters_iff {s t : List Char} : SameLetters s t ↔ upper s = upper t := by
  rw [SameLetters, upper, upper, ← List.forall₂_eq_eq_eq, List.forall₂_map_left_iff,
    List.forall₂_map_right_iff]

/-- The same for strings. -/
def Text.SameString (s t : String) : Prop := SameLetters s.toList t.toList

theorem Text.sameString_of_capitals_eq {s t : String} (h : capitals s = capitals t) : SameString s t :=
  sameLetters_iff.2 (String.ofList_injective h)

/-- Strings that are both there or both missing. -/
theorem Text.rel_sameString_of_map_capitals_eq {s? t? : Option String}
    (h : s?.map capitals = t?.map capitals) : Option.Rel SameString s? t? := by
  cases s? with
  | none =>
    cases t? with
    | none => exact .none
    | some t => cases h
  | some s =>
    cases t? with
    | none => cases h
    | some t => exact .some (sameString_of_capitals_eq (Option.some.inj h))

namespace Chart

/-- Two readings come to the same, up to the case of letters in the texts of the song, and in the text that
an error about the name of a definition quotes. -/
inductive SameUpToCase : Except ChartError (Chart α) → Except ChartError (Chart α) → Prop
  | ok {chart chart' : Chart α}
      (title : Option.Rel SameString chart.song.info.title chart'.song.info.title)
      (artist : Option.Rel SameString chart.song.info.artist chart'.song.info.artist)
      (designer : Option.Rel SameString chart.song.info.designer chart'.song.info.designer)
      (waveOffset : chart.song.info.waveOffset = chart'.song.info.waveOffset)
      (notes : chart.song.notes = chart'.song.notes)
      (tempo : chart.song.tempo = chart'.song.tempo)
      (measures : chart.song.measures = chart'.song.measures)
      (measureSeconds : chart.song.measureSeconds = chart'.song.measureSeconds)
      (warnings : chart.warnings = chart'.warnings) : SameUpToCase (.ok chart) (.ok chart')
  | notAnId {text text' : String} (line : Nat) (span : Span)
      (quoted : SameString text text') :
      SameUpToCase (.error (.lex ⟨⟨line, .notAnId text⟩, span⟩))
        (.error (.lex ⟨⟨line, .notAnId text'⟩, span⟩))
  | error (e : ChartError) : SameUpToCase (.error e) (.error e)

/-- Charts that are the same in upper case. -/
theorem sameUpToCase_ok {chart chart' : Chart α} (h : chart.upper = chart'.upper) :
    SameUpToCase (.ok chart) (.ok chart') := by
  obtain ⟨hsong, hwarnings⟩ := Chart.mk.inj h
  obtain ⟨hinfo, hnotes, htempo, hmeasures, hseconds⟩ := Song.mk.inj hsong
  obtain ⟨htitle, hartist, hdesigner, hoffset⟩ := SongInfo.mk.inj hinfo
  exact .ok (rel_sameString_of_map_capitals_eq htitle) (rel_sameString_of_map_capitals_eq hartist)
    (rel_sameString_of_map_capitals_eq hdesigner) hoffset hnotes htempo hmeasures hseconds hwarnings

/-- Errors that are the same in upper case. -/
theorem sameUpToCase_error {e e' : ChartError} (h : e.upper = e'.upper) :
    SameUpToCase (.error e : Except ChartError (Chart α)) (.error e') := by
  cases e with
  | parse e =>
    cases e' with
    | parse e' =>
      cases h
      exact .error _
    | lex e' => cases h
  | lex e =>
    cases e' with
    | parse e' => cases h
    | lex e' =>
      obtain ⟨⟨line, fault⟩, span⟩ := e
      obtain ⟨⟨line', fault'⟩, span'⟩ := e'
      obtain ⟨herror, rfl⟩ := Spanned.mk.inj (ChartError.lex.inj h)
      obtain ⟨rfl, hfault⟩ := LexError.mk.inj herror
      cases fault with
      | expected what =>
        cases fault' with
        | expected what' =>
          cases hfault
          exact .error _
        | notAnId text' => cases hfault
      | notAnId text =>
        cases fault' with
        | expected what' => cases hfault
        | notAnId text' =>
          exact .notAnId line span (sameString_of_capitals_eq (LineFault.notAnId.inj hfault))

/-- Texts that differ in the case of letters only are read with the same calls of the prompter, and come to
the same at the same places, the texts of the song and a quoted name up to letter case. -/
theorem read_of_sameLetters (prompter : Prompter Float) {source source' : List Char}
    (h : SameLetters source source') :
    (read prompter source).prompts = (read prompter source').prompts ∧
      SameUpToCase (read prompter source).result (read prompter source').result := by
  have hread := read_upper prompter source
  rw [sameLetters_iff.1 h, read_upper] at hread
  obtain ⟨hprompts, hresult⟩ := Reading.mk.inj hread
  refine ⟨hprompts.symm, ?_⟩
  generalize (read prompter source).result = result at *
  generalize (read prompter source').result = result' at *
  cases result with
  | error e =>
    cases result' with
    | error e' => exact sameUpToCase_error (Except.error.inj hresult).symm
    | ok chart' => cases hresult
  | ok chart =>
    cases result' with
    | error e' => cases hresult
    | ok chart' => exact sameUpToCase_ok (Except.ok.inj hresult).symm

/-- A title, the name of a definition, the exponent of its value and slots in either case. -/
theorem read_of_sameLetters_of_title :
    SameLetters "#title ab\n#bpm0a:12e1\n#00008:0a\n#00010:1a".toList
        "#TITLE aB\n#Bpm0A:12E1\n#00008:0A\n#00010:1A".toList ∧
      SameUpToCase
        (read (Prompter.always .halt) "#title ab\n#bpm0a:12e1\n#00008:0a\n#00010:1a".toList).result
        (read (Prompter.always .halt) "#TITLE aB\n#Bpm0A:12E1\n#00008:0A\n#00010:1A".toList).result := by
  have h : SameLetters "#title ab\n#bpm0a:12e1\n#00008:0a\n#00010:1a".toList
      "#TITLE aB\n#Bpm0A:12E1\n#00008:0A\n#00010:1A".toList := sameLetters_iff.2 (by decide)
  exact ⟨h, (read_of_sameLetters (Prompter.always .halt) h).2⟩

end Chart

end RhythmChart
