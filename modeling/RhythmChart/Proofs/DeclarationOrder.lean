import RhythmChart.Proofs.Stages

/-!
# Declarations of different kinds in any order

A song depends on eight kinds of tokens (`TokenKind`), and on the order of tokens within each kind only.
`ofTokens_eq_of_kinds` says that two charts with the same tokens of each kind come to the same: the same
song and warnings or the same error, after the same calls of the prompter.  Tokens of no kind say
nothing.
-/

namespace RhythmChart

variable {α : Type} [Scalar α]

/-- The kinds of tokens that say something.  The lines of taps and slides make one list of notes, so
they are of one kind. -/
inductive TokenKind where
  | beatsPerMeasure
  | bpmDefinition
  | placement
  | laneLine
  | waveOffset
  | title
  | artist
  | designer
  deriving DecidableEq

/-- The kinds of tokens that say a fact about the song. -/
def TokenKind.ofInfo : List TokenKind := [.waveOffset, .title, .artist, .designer]

namespace Token

def kind? : Token α → Option TokenKind
  | .artist _ => some .artist
  | .designer _ => some .designer
  | .title _ => some .title
  | .waveOffset _ => some .waveOffset
  | .beatsPerMeasure _ _ => some .beatsPerMeasure
  | .bpmDefinition _ _ => some .bpmDefinition
  | .message _ .bpmChange _ => some .placement
  | .message _ (.tap _) _ => some .laneLine
  | .message _ (.slide _ _) _ => some .laneLine
  | .message _ .beatsPerMeasure _ => none
  | .message _ (.unsupported _) _ => none
  | .header _ _ => none
  | .remark _ => none

/-- The tokens of a kind with their places, in order. -/
def ofKind (k : TokenKind) (ts : List (Spanned (Token α))) : List (Spanned (Token α)) :=
  ts.filter fun t => t.content.kind? = some k

/-! ## Parts of a chart depend on one kind each -/

theorem filterMap_ofKind {β : Type} {k : TokenKind} {f : Spanned (Token α) → Option β}
    (h : ∀ t : Spanned (Token α), t.content.kind? ≠ some k → f t = none)
    (ts : List (Spanned (Token α))) : (ofKind k ts).filterMap f = ts.filterMap f := by
  rw [ofKind, List.filterMap_filter]
  congr 1
  funext t
  by_cases ht : t.content.kind? = some k
  · simp [ht]
  · simp [ht, h t ht]

theorem flatMap_ofKind {β : Type} {k : TokenKind} {f : Spanned (Token α) → List β}
    (h : ∀ t : Spanned (Token α), t.content.kind? ≠ some k → f t = [])
    (ts : List (Spanned (Token α))) : (ofKind k ts).flatMap f = ts.flatMap f := by
  induction ts with
  | nil => rfl
  | cons t ts ih =>
    rw [ofKind, List.filter_cons]
    split
    · rw [List.flatMap_cons, List.flatMap_cons, ← ih]
      rfl
    · next ht =>
      rw [List.flatMap_cons, h t (by simpa using ht), List.nil_append, ← ih]
      rfl

theorem beatsDeclarations_ofKind (ts : List (Spanned (Token α))) :
    beatsDeclarations (ofKind .beatsPerMeasure ts) = beatsDeclarations ts := by
  refine filterMap_ofKind (fun t ht => ?_) ts
  split
  · next h => exact absurd (by rw [h]; rfl) ht
  · rfl

theorem bpmDeclarations_ofKind (ts : List (Spanned (Token α))) :
    bpmDeclarations (ofKind .bpmDefinition ts) = bpmDeclarations ts := by
  refine filterMap_ofKind (fun t ht => ?_) ts
  split
  · next h => exact absurd (by rw [h]; rfl) ht
  · rfl

theorem placements_ofKind (measures : MeasureTimeline α) (ts : List (Spanned (Token α))) :
    placements measures (ofKind .placement ts) = placements measures ts := by
  refine congrArg (List.map _) (flatMap_ofKind (fun t ht => ?_) ts)
  split
  · next h => exact absurd (by rw [h]; rfl) ht
  · rfl

theorem laneLines_ofKind (measures : MeasureTimeline α) (ts : List (Spanned (Token α))) :
    laneLines measures (ofKind .laneLine ts) = laneLines measures ts := by
  refine filterMap_ofKind (fun t ht => ?_) ts
  split
  · next h => exact absurd (by rw [h]; rfl) ht
  · next h => exact absurd (by rw [h]; rfl) ht
  · rfl

theorem last?_congr {β : Type} (k : TokenKind) {fact : Token α → Option β}
    (hfact : ∀ t : Token α, t.kind? ≠ some k → fact t = none) {ts ts' : List (Spanned (Token α))}
    (h : ofKind k ts = ofKind k ts') : last? fact ts = last? fact ts' := by
  unfold last?
  have hf := filterMap_ofKind (f := fun t => fact t.content) fun t ht => hfact t.content ht
  rw [← hf, h, hf]

/-- The facts about a song depend on the tokens of their own kind each. -/
theorem songInfo_congr {ts ts' : List (Spanned (Token α))}
    (h : ∀ k ∈ TokenKind.ofInfo, ofKind k ts = ofKind k ts') : songInfo ts = songInfo ts' := by
  have htitle : last? title? ts = last? title? ts' := by
    refine last?_congr .title (fun t ht => ?_) (h _ (by decide))
    cases t <;> first | rfl | exact absurd rfl ht
  have hartist : last? artist? ts = last? artist? ts' := by
    refine last?_congr .artist (fun t ht => ?_) (h _ (by decide))
    cases t <;> first | rfl | exact absurd rfl ht
  have hdesigner : last? designer? ts = last? designer? ts' := by
    refine last?_congr .designer (fun t ht => ?_) (h _ (by decide))
    cases t <;> first | rfl | exact absurd rfl ht
  have hwaveOffset : last? waveOffset? ts = last? waveOffset? ts' := by
    refine last?_congr .waveOffset (fun t ht => ?_) (h _ (by decide))
    cases t <;> first | rfl | exact absurd rfl ht
  unfold songInfo infoFrom
  rw [htitle, hartist, hdesigner, hwaveOffset]

theorem ofKind_append_cons {k : TokenKind} (xs ys : List (Spanned (Token α)))
    {t : Spanned (Token α)} (h : t.content.kind? = none) :
    ofKind k (xs ++ t :: ys) = ofKind k (xs ++ ys) := by
  simp [ofKind, h]

end Token

namespace Chart

open Token

/-- The parts of a chart of its kinds of tokens decide its song. -/
theorem resolve_congr (prompter : Prompter α) {ts ts' : List (Spanned (Token α))}
    (h : ∀ k, ofKind k ts = ofKind k ts') : resolve prompter ts = resolve prompter ts' := by
  have hbeats : beatsDeclarations ts = beatsDeclarations ts' := by
    rw [← beatsDeclarations_ofKind, h, beatsDeclarations_ofKind]
  have hbpm : bpmDeclarations ts = bpmDeclarations ts' := by
    rw [← bpmDeclarations_ofKind, h, bpmDeclarations_ofKind]
  have hplacements (measures : MeasureTimeline α) :
      placements measures ts = placements measures ts' := by
    rw [← placements_ofKind, h, placements_ofKind]
  have hlines (measures : MeasureTimeline α) : laneLines measures ts = laneLines measures ts' := by
    rw [← laneLines_ofKind, h, laneLines_ofKind]
  rw [resolve_eq_stages, resolve_eq_stages]
  simp only [hbeats, hbpm, hplacements, hlines, songInfo_congr fun k _ => h k]

/-- Charts with the same tokens of each kind, in whatever order the kinds are mixed, come to the same
after the same calls of the prompter.  A token of no kind can stand anywhere. -/
theorem ofTokens_eq_of_kinds (prompter : Prompter α) :
    (∀ ts ts' : List (Spanned (Token α)),
      (∀ k, ofKind k ts = ofKind k ts') → ofTokens prompter ts = ofTokens prompter ts') ∧
    ∀ (xs ys : List (Spanned (Token α))) (t : Spanned (Token α)), t.content.kind? = none →
      ofTokens prompter (xs ++ t :: ys) = ofTokens prompter (xs ++ ys) := by
  have hmain {ts ts' : List (Spanned (Token α))} (h : ∀ k, ofKind k ts = ofKind k ts') :
      ofTokens prompter ts = ofTokens prompter ts' := by
    unfold ofTokens
    rw [resolve_congr prompter h]
  exact ⟨fun _ _ => hmain, fun xs ys t ht => hmain fun k => ofKind_append_cons xs ys ht⟩

/-- A message that comes before the definition of its tempo, with a header between them. -/
theorem ofTokens_eq_of_definition_last :
    ofTokens Prompter.preferSlower
        [⟨.message ⟨0⟩ (.tap 3) "0012", ⟨0, 11⟩⟩,
          ⟨.bpmDefinition ⟨1⟩ (Finite.four : Finite Float), ⟨12, 21⟩⟩, ⟨.title "a", ⟨22, 30⟩⟩] =
      ofTokens Prompter.preferSlower
        [⟨.title "a", ⟨22, 30⟩⟩, ⟨.bpmDefinition ⟨1⟩ (Finite.four : Finite Float), ⟨12, 21⟩⟩,
          ⟨.message ⟨0⟩ (.tap 3) "0012", ⟨0, 11⟩⟩] ∧
    ofTokens Prompter.preferSlower
        ([⟨.bpmDefinition ⟨1⟩ (Finite.four : Finite Float), ⟨0, 9⟩⟩] ++
          ⟨.header "REQUEST" "x", ⟨10, 20⟩⟩ :: [⟨.message ⟨0⟩ (.tap 3) "0012", ⟨21, 32⟩⟩]) =
      ofTokens Prompter.preferSlower
        ([⟨.bpmDefinition ⟨1⟩ (Finite.four : Finite Float), ⟨0, 9⟩⟩] ++
          [⟨.message ⟨0⟩ (.tap 3) "0012", ⟨21, 32⟩⟩]) :=
  ⟨(ofTokens_eq_of_kinds Prompter.preferSlower).1 _ _ (by intro k; cases k <;> rfl),
    (ofTokens_eq_of_kinds Prompter.preferSlower).2 _ _ _ rfl⟩

end Chart

end RhythmChart
