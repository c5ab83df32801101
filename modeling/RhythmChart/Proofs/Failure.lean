import RhythmChart.Proofs.Course

/-!
# When reading a chart fails

`Failure` lists the errors that reading a chart can come to, in the order in which they apply.  The first
three stop the settling of the declarations, by a halt of the prompter or by a placement without a
definition.  After it, the lowest name whose kept BPM is not above zero counts, placed or not, and last
the want of any definition.  `ofTokens_eq_error_iff` says that reading fails in these cases only, and that
in all others there is a song whose tempo has a change.
-/

open scoped List

namespace RhythmChart

open Float.Model in
/-- A finite number that is not above zero is at most zero. -/
theorem Finite.not_pos_iff (x : Finite Float) : ¬ ((0 : Nat) : Float) < x.val ↔ x.val ≤ 0 := by
  have hfinite : x.val.toModel.unpack.isFinite = true := x.finite
  have hzero : ((0 : Nat) : Float).toModel.unpack = .zero .positive := rfl
  have hzero' : (0 : Float).toModel.unpack = .zero .positive := rfl
  have hlt : ((0 : Nat) : Float) < x.val ↔
      UnpackedFloat.lt (.zero .positive) x.val.toModel.unpack = true := by
    rw [← hzero]
    exact decide_eq_true_iff
  have hle : x.val ≤ 0 ↔ x.val.toModel.unpack.le (.zero .positive) = true := by
    rw [← hzero']
    exact decide_eq_true_iff
  rw [hlt, hle]
  cases h : x.val.toModel.unpack with
  | notANumber =>
    rw [h] at hfinite
    cases hfinite
  | infinity s =>
    rw [h] at hfinite
    cases hfinite
  | zero s => cases s <;> decide
  | finite s m e hm =>
    cases s with
    | negative => exact iff_of_true Bool.false_ne_true rfl
    | positive => exact iff_of_false (fun h => h rfl) Bool.false_ne_true

namespace Chart

open Token

/-- The errors that reading a chart comes to. -/
inductive Failure (prompter : Prompter Float) (ts : List (Spanned (Token Float))) :
    Spanned ParseError → Prop
  /-- The settling of the declarations stops. -/
  | stopped {r : Rulings Float} {e : Spanned ParseError} (course : Course prompter ts r (some e)) :
      Failure prompter ts e
  /-- The declarations are settled, and a BPM that is kept is not above zero.  Its name is the lowest. -/
  | nonPositive {r : Rulings Float} {id : BpmId} {bpm : Spanned (Finite Float)}
      (course : Course prompter ts r none) (kept : (keptAfter r.definitions)[id]? = some bpm)
      (le : bpm.content.val ≤ 0)
      (lowest : ∀ (other : BpmId) (bpm : Spanned (Finite Float)),
        (keptAfter r.definitions)[other]? = some bpm → other.value < id.value → 0 < bpm.content.val) :
      Failure prompter ts ⟨.nonPositiveBpm id, bpm.span⟩
  /-- The declarations are settled, and no token defines a BPM. -/
  | noDefinition {r : Rulings Float} (course : Course prompter ts r none)
      (undefined : ∀ id, ¬ Defines ts id) : Failure prompter ts ⟨.noBpmDefinition, ⟨0, 0⟩⟩

variable {prompter : Prompter Float} {ts : List (Spanned (Token Float))}

theorem Failure.result_eq {e : Spanned ParseError} (h : Failure prompter ts e) :
    (ofTokens prompter ts).result = .error e := by
  cases h with
  | stopped course => rw [course.ofTokens_of_stopped]
  | nonPositive course kept le lowest =>
    have hbpm : LowestNonPositive (keptAfter _) _ _ := ⟨kept, (Finite.not_pos_iff _).2 le, lowest⟩
    rw [course.ofTokens_of_nonPositive hbpm]
  | noDefinition course undefined => rw [course.ofTokens_of_undefined undefined]

/-- The chart is accepted.  Its tempo has a change, and is made of the definitions and placements kept. -/
def Accepted (prompter : Prompter Float) (ts : List (Spanned (Token Float))) : Prop :=
  ∃ (chart : Chart Float) (r : Rulings Float) (defs : List (Definition Float)),
    (ofTokens prompter ts).result = .ok chart ∧ Course prompter ts r none ∧
    defs.map Definition.entry = (keptAfter r.definitions).toList ∧
    chart.song.changes ≠ [] ∧ chart.song.changes ~ (tempoChanges defs (keptAfter r.placements)).1 ∧
    BpmTimeline.ofChanges? (tempoChanges defs (keptAfter r.placements)).1
      (songInfo ts).waveOffset = some chart.song.tempo

/-- A chart fails in a way listed, or it is accepted. -/
theorem exists_failure_or_accepted (prompter : Prompter Float) (ts : List (Spanned (Token Float))) :
    (∃ e, Failure prompter ts e) ∨ Accepted prompter ts := by
  obtain ⟨r, e | e, course⟩ := exists_course prompter ts
  · rcases course.cases with ⟨id, bpm, hbpm⟩ | hnone | ⟨defs, tempo, hdefs, htempo⟩
    · have hle := (Finite.not_pos_iff _).1 hbpm.nonPositive
      exact .inl ⟨_, .nonPositive course hbpm.holds hle hbpm.lowest⟩
    · exact .inl ⟨_, .noDefinition course hnone⟩
    · have hok := congrArg Reading.result (course.ofTokens_of_tempo hdefs htempo)
      obtain ⟨-, defs, m⟩ := course.exists_madeOf hok
      exact .inr ⟨_, r, defs, hok, course, m.entries, m.changes_ne_nil, m.perm_changes, m.tempo⟩
  · exact .inl ⟨e, .stopped course⟩

/-- Reading a chart fails exactly in the ways listed, with the first error that applies, and is accepted
otherwise.  A BPM that is not above zero counts only where it is kept.  That a definition is wanting is noticed
where the changes of tempo are settled; once they are, they make a timeline, so it is never noticed there. -/
theorem ofTokens_eq_error_iff (prompter : Prompter Float) (ts : List (Spanned (Token Float))) :
    (∀ measures, Declared measures ts (beatsDeclarations ts) (bpmDeclarations ts) (placements measures ts)) ∧
      (∀ e, (ofTokens prompter ts).result = .error e ↔ Failure prompter ts e) ∧
      (Accepted prompter ts ↔ ∀ e, ¬ Failure prompter ts e) ∧
      (∀ id span, (ofTokens prompter ts).result = .error ⟨.nonPositiveBpm id, span⟩ →
        ∃ r bpm, Course prompter ts r none ∧ (keptAfter r.definitions)[id]? = some ⟨bpm, span⟩ ∧
          bpm.val ≤ 0) ∧
      ∀ (defs : List (Definition Float)) (placed : Kept BpmId (Placement Float)) (waveOffset : Float) changes
        log log', Yields (settleChanges defs placed) log changes log' →
          ∃ tempo, BpmTimeline.ofChanges? changes waveOffset = some tempo := by
  have hrejected {e : Spanned ParseError} (h : (ofTokens prompter ts).result = .error e) :
      ¬ Accepted prompter ts := by
    rintro ⟨chart, r, defs, hok, -⟩
    rw [h] at hok
    cases hok
  have herror (e : Spanned ParseError) :
      (ofTokens prompter ts).result = .error e ↔ Failure prompter ts e := by
    refine ⟨fun h => ?_, Failure.result_eq⟩
    rcases exists_failure_or_accepted prompter ts with ⟨e', hfailure⟩ | haccepted
    · have heq := hfailure.result_eq
      rw [h] at heq
      cases heq
      exact hfailure
    · exact absurd haccepted (hrejected h)
  refine ⟨fun measures => declared measures ts, herror,
    ⟨fun haccepted e hfailure => hrejected hfailure.result_eq haccepted, fun hnone => ?_⟩,
    fun id span h => ?_, fun defs placed waveOffset changes log log' h =>
      exists_ofChanges?_of_settleChanges h waveOffset⟩
  · rcases exists_failure_or_accepted prompter ts with ⟨e, hfailure⟩ | haccepted
    · exact absurd hfailure (hnone e)
    · exact haccepted
  · cases (herror _).1 h with
    | stopped course => cases course
    | nonPositive course kept le lowest => exact ⟨_, _, course, kept, le⟩

end Chart

end RhythmChart
