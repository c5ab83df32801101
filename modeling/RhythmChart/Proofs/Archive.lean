import RhythmChart.Archive.Song
import RhythmChart.Proofs.Chronology

/-!
# What archives keep

Data without numbers are read back as they were written.  A number that is not finite leaves a gap, which is
never read as a number, so a value with numbers is read back if all of them are finite and not at all if one
of them is not (`Restores`).  `Archive.survives_iff_finite` says this of whatever reading a chart comes to.
-/

namespace RhythmChart

/-! ## Fields -/

namespace Datum

variable {α β : Type}

@[simp]
theorem get?_self (f : Datum α → Option β) (name : String) (d : Datum α)
    (fields : List (String × Datum α)) : (record ((name, d) :: fields)).get? f name = f d := by
  rw [get?, field?, List.lookup_cons_self, Option.bind_some]

@[simp]
theorem get?_of_ne (f : Datum α → Option β) {name other : String} (h : name ≠ other) (d : Datum α)
    (fields : List (String × Datum α)) :
    (record ((other, d) :: fields)).get? f name = (record fields).get? f name := by
  rw [get?, field?, List.lookup_cons, beq_false_of_ne h]
  rfl

@[simp]
theorem nat?_nat (n : Nat) : (nat n : Datum α).nat? = some n := rfl

@[simp]
theorem text?_text (s : String) : (text s : Datum α).text? = some s := rfl

@[simp]
theorem variant?_variant (name : String) (d : Datum α) : (variant name d).variant? = some (name, d) := rfl

@[simp]
theorem option?_ofOption_text (s : Option String) : option? text? (ofOption text s : Datum α) = some s := by
  cases s <;> rfl

@[simp]
theorem span?_ofSpan (s : Span) : (ofSpan s : Datum α).span? = some s := by
  simp [span?, ofSpan]

theorem spanned?_ofSpanned {write : β → Datum α} {read : Datum α → Option β}
    (h : ∀ b, read (write b) = some b) (x : Spanned β) : (ofSpanned write x).spanned? read = some x := by
  simp [spanned?, ofSpanned, h]

theorem list?_ofList {write : β → Datum α} {read : Datum α → Option β} (h : ∀ b, read (write b) = some b)
    (bs : List β) : (ofList write bs).list? read = some bs := by
  change (bs.map write).mapM read = some bs
  rw [List.mapM_map]
  induction bs with
  | nil => rfl
  | cons b bs ih =>
    rw [List.mapM_cons, ih]
    simp [h]

end Datum

namespace Archive

/-! ## Issues -/

section Issues

variable {α : Type}

open Datum

@[simp]
theorem bpmId?_ofBpmId (i : BpmId) : bpmId? (ofBpmId i : Datum α) = some i := by
  change BpmId.ofNat? i.value.val = some i
  rw [BpmId.ofNat?, dif_pos i.value.isLt]

@[simp]
theorem track?_ofTrack (t : Track) : track? (ofTrack t : Datum α) = some t := rfl

@[simp]
theorem time?_ofTime (t : SlotTime) : time? (ofTime t : Datum α) = some t := by
  simp [time?, ofTime, t.lt, t.coprime]

@[simp]
theorem lexError?_ofLexError (e : LexError) : lexError? (ofLexError e : Datum α) = some e := by
  obtain ⟨line, fault⟩ := e
  cases fault <;> simp [lexError?, ofLexError]

@[simp]
theorem parseError?_ofParseError (e : ParseError) : parseError? (ofParseError e : Datum α) = some e := by
  cases e <;> simp [parseError?, ofParseError, variant, variant?]

@[simp]
theorem error?_ofError (e : ChartError) : error? (ofError e : Datum α) = some e := by
  cases e with
  | lex e => simp [error?, ofError, spanned?_ofSpanned lexError?_ofLexError]
  | parse e => simp [error?, ofError, spanned?_ofSpanned parseError?_ofParseError]

@[simp]
theorem warning?_ofWarning (w : Warning) : warning? (ofWarning w : Datum α) = some w := by
  cases w <;> simp [warning?, ofWarning, ofSlideEnd]

@[simp]
theorem locatedWarning?_ofLocatedWarning (w : Spanned Warning) :
    locatedWarning? (ofLocatedWarning w : Datum α) = some w := by
  simp [locatedWarning?, ofLocatedWarning, spanned?_ofSpanned warning?_ofWarning]

end Issues

theorem timeline?_toList {ρ α : Type} (t : Timeline ρ α) : timeline? t.knots.toList = some t := by
  have hsize : 0 < t.knots.toList.toArray.size := t.nonempty
  rw [timeline?, dif_pos hsize]

/-! ## Numbers -/

section Numbers

variable {α β γ : Type} [Scalar α]

open Datum

/-- Reading comes to the value if all its numbers are finite, and to nothing if one of them is not. -/
structure Restores (o : Option β) (numbers : List α) (b : β) : Prop where
  whole : (∀ x ∈ numbers, Scalar.isFinite x = true) → o = some b
  gap : (∃ x ∈ numbers, Scalar.isFinite x = false) → o = none

theorem restores_some (b : β) : Restores (some b) ([] : List α) b where
  whole _ := rfl
  gap := nofun

theorem restores_scalar (x : α) : Restores (ofScalar x).scalar? [x] x where
  whole h := by
    rw [ofScalar, if_pos (h x List.mem_cons_self)]
    rfl
  gap h := by
    obtain ⟨y, hy, hgap⟩ := h
    rw [List.mem_singleton.1 hy] at hgap
    rw [ofScalar, if_neg (by simp [hgap])]
    rfl

namespace Restores

variable {o : Option β} {xs ys : List α} {b : β} {c : γ}

theorem bind {f : β → Option γ} (h : Restores o xs b) (hf : Restores (f b) ys c) :
    Restores (o.bind f) (xs ++ ys) c where
  whole hfinite := by
    obtain ⟨hxs, hys⟩ := List.forall_mem_append.1 hfinite
    rw [h.whole hxs, Option.bind_some, hf.whole hys]
  gap hgap := by
    by_cases hxs : ∃ x ∈ xs, Scalar.isFinite x = false
    · rw [h.gap hxs]
      rfl
    · have hwhole : o = some b := h.whole fun x hx => by simpa using fun hx' => hxs ⟨x, hx, hx'⟩
      obtain ⟨x, hx, hx'⟩ := hgap
      rcases List.mem_append.1 hx with hx | hx
      · exact absurd ⟨x, hx, hx'⟩ hxs
      · rw [hwhole, Option.bind_some, hf.gap ⟨x, hx, hx'⟩]

theorem map (f : β → γ) (h : Restores o xs b) : Restores (o.map f) xs (f b) where
  whole hfinite := by rw [h.whole hfinite, Option.map_some]
  gap hgap := by rw [h.gap hgap, Option.map_none]

theorem scalar_bind {f : α → Option γ} {x : α} (h : Restores (f x) xs c) :
    Restores ((ofScalar x).scalar?.bind f) (x :: xs) c := (restores_scalar x).bind h

theorem eq_some_iff (h : Restores o xs b) : o = some b ↔ ∀ x ∈ xs, Scalar.isFinite x = true := by
  refine ⟨fun heq x hx => ?_, h.whole⟩
  by_contra hx'
  rw [h.gap ⟨x, hx, by simpa using hx'⟩] at heq
  cases heq

end Restores

/-- A list is restored if each of its items is. -/
theorem restores_list {write : γ → Datum α} {read : Datum α → Option β} {numbers : γ → List α} {kept : γ → β}
    (h : ∀ c, Restores (read (write c)) (numbers c) (kept c)) (cs : List γ) :
    Restores ((ofList write cs).list? read) (cs.flatMap numbers) (cs.map kept) := by
  change Restores ((cs.map write).mapM read) _ _
  rw [List.mapM_map]
  induction cs with
  | nil => exact restores_some []
  | cons c cs ih =>
    have hcons : Restores (some (kept c :: cs.map kept)) ([] : List α) (kept c :: cs.map kept) :=
      restores_some _
    rw [List.mapM_cons, List.flatMap_cons, ← List.append_nil (cs.flatMap numbers)]
    exact (h c).bind (ih.bind hcons)

end Numbers

end Archive

/-! ## The numbers of a chart -/

section Numbers

variable {α : Type}

def Point.numbers (p : Point α) : List α := [p.beat, p.seconds]

def Note.numbers : Note (Point α) → List α
  | .tap point => point.numbers
  | .slide _ start stop => start.numbers ++ stop.numbers

variable [Scalar α]

def BpmChange.numbers (k : Knot (BpmChange α) α) : List α := [k.change.bpm.val, k.change.beat, k.value]

def MeasureAnchor.numbers (a : MeasureAnchor α) : List α := [a.measure, a.beats.val, a.beat, a.seconds]

def BpmTimeline.numbers (t : BpmTimeline α) : List α :=
  t.knots.toList.flatMap BpmChange.numbers ++ [t.waveOffset]

/-- All numbers of a song, the seconds of its measures included. -/
def Song.numbers (s : Song α) : List α :=
  s.info.waveOffset :: (s.notes.toList.flatMap Note.numbers ++
    (s.tempo.numbers ++ s.measureAnchors.flatMap MeasureAnchor.numbers))

end Numbers

namespace Archive

section Songs

variable {α : Type} [Scalar α]

open Datum

theorem restores_info (i : SongInfo α) : Restores (info? (ofInfo i)) [i.waveOffset] i := by
  have hinfo : info? (ofInfo i) = (ofScalar i.waveOffset).scalar?.bind fun waveOffset =>
      some { i with waveOffset } := by
    simp [info?, ofInfo]
  rw [hinfo]
  exact .scalar_bind (restores_some i)

theorem restores_point (p : Point α) : Restores (point? (ofPoint p)) p.numbers p := by
  have hpoint : point? (ofPoint p) = (ofScalar p.beat).scalar?.bind fun beat =>
      (ofScalar p.seconds).scalar?.bind fun seconds => some ⟨⟨p.lane, p.width, beat⟩, seconds⟩ := by
    simp [point?, ofPoint]
  rw [hpoint]
  exact .scalar_bind (.scalar_bind (restores_some p))

theorem restores_note (n : Note (Point α)) : Restores (note? (ofNote n)) n.numbers n := by
  cases n with
  | tap point =>
    have hnote : note? (ofNote (.tap point)) = (point? (ofPoint point)).map .tap := by
      simp [note?, ofNote, Option.map_eq_bind]
    rw [hnote]
    exact (restores_point point).map Note.tap
  | slide channel start stop =>
    have hnote : note? (ofNote (.slide channel start stop)) = (point? (ofPoint start)).bind fun start =>
        (point? (ofPoint stop)).map (.slide channel start) := by
      simp [note?, ofNote, Option.map_eq_bind]
    rw [hnote]
    exact (restores_point start).bind ((restores_point stop).map (Note.slide channel start))

theorem restores_finite (x : Finite α) : Restores (ofScalar x.val).finite? [x.val] x := by
  have hfinite : Finite.of? x.val = some x := dif_pos x.finite
  exact .scalar_bind (hfinite ▸ restores_some x)

theorem restores_positive (x : Positive α) : Restores (ofScalar x.val).positive? [x.val] x := by
  have hpositive : Finite.positive? x.toFinite = some x := dif_pos x.pos
  have hnil : Restores (Finite.positive? x.toFinite) ([] : List α) x := hpositive ▸ restores_some x
  exact (restores_finite x.toFinite).bind hnil

/-! Changes of tempo, and changes of beats per measure with their seconds. -/

theorem restores_bpmKnot (k : Knot (BpmChange α) α) :
    Restores (bpmKnot? (ofBpmKnot k)) (BpmChange.numbers k) k := by
  have hknot : bpmKnot? (ofBpmKnot k) = (ofScalar k.change.bpm.val).positive?.bind fun bpm =>
      (ofScalar k.change.beat).scalar?.bind fun beat => (ofScalar k.value).scalar?.bind fun seconds =>
        some ⟨⟨k.change.id, bpm, beat⟩, seconds⟩ := by
    simp [bpmKnot?, ofBpmKnot]
  rw [hknot]
  exact (restores_positive k.change.bpm).bind (.scalar_bind (.scalar_bind (restores_some k)))

theorem restores_measureAnchor (a : MeasureAnchor α) :
    Restores (measureAnchor? (ofMeasureAnchor a)) a.numbers a := by
  have hanchor : measureAnchor? (ofMeasureAnchor a) = (ofScalar a.measure).scalar?.bind fun measure =>
      (ofScalar a.beats.val).finite?.bind fun beats => (ofScalar a.beat).scalar?.bind fun beat =>
        (ofScalar a.seconds).scalar?.bind fun seconds => some { measure, beats, beat, seconds } := by
    simp [measureAnchor?, ofMeasureAnchor]
  rw [hanchor]
  exact .scalar_bind ((restores_finite a.beats).bind (.scalar_bind (.scalar_bind (restores_some a))))

/-! Timelines, songs and charts. -/

theorem restores_tempo (t : BpmTimeline α) : Restores (tempo? (ofTempo t)) t.numbers t := by
  have htempo : tempo? (ofTempo t) = ((ofList ofBpmKnot t.knots.toList).list? bpmKnot?).bind fun knots =>
      (timeline? knots).bind fun timeline => (ofScalar t.waveOffset).scalar?.bind fun waveOffset =>
        some ⟨timeline, waveOffset⟩ := by
    simp [tempo?, ofTempo]
  have hknots := restores_list restores_bpmKnot t.knots.toList
  rw [List.map_id'] at hknots
  rw [htempo]
  refine hknots.bind ?_
  rw [timeline?_toList]
  exact .scalar_bind (restores_some t)

theorem restores_measures (anchors : List (MeasureAnchor α)) :
    Restores (measures? (ofMeasures anchors)) (anchors.flatMap MeasureAnchor.numbers) anchors := by
  have hmeasures : measures? (ofMeasures anchors) = (ofList ofMeasureAnchor anchors).list? measureAnchor? := by
    simp [measures?, ofMeasures]
  have hanchors := restores_list restores_measureAnchor anchors
  rwa [List.map_id', ← hmeasures] at hanchors

/-- A song is put together from its parts again. -/
theorem songWith?_measureAnchors (s : Song α) :
    songWith? s.info s.notes.toList s.tempo s.measureAnchors = some s := by
  have hsize : 0 < (s.measureAnchors.map MeasureAnchor.knot).toArray.size := by
    rw [s.map_knot_measureAnchors]
    exact s.measures.nonempty
  rw [songWith?, dif_pos hsize]
  simp only [s.map_knot_measureAnchors, s.map_seconds_measureAnchors]

theorem restores_song (s : Song α) : Restores (song? (ofSong s)) s.numbers s := by
  have hsong : song? (ofSong s) = (info? (ofInfo s.info)).bind fun info =>
      ((ofList ofNote s.notes.toList).list? note?).bind fun notes =>
        (tempo? (ofTempo s.tempo)).bind fun tempo =>
          (measures? (ofMeasures s.measureAnchors)).bind fun anchors =>
            songWith? info notes tempo anchors := by
    simp [song?, ofSong]
  have hnotes := restores_list restores_note s.notes.toList
  rw [List.map_id'] at hnotes
  have hwhole : Restores (songWith? s.info s.notes.toList s.tempo s.measureAnchors) ([] : List α) s := by
    rw [songWith?_measureAnchors]
    exact restores_some s
  have hmeasures := (restores_measures s.measureAnchors).bind hwhole
  rw [List.append_nil] at hmeasures
  rw [hsong]
  exact (restores_info s.info).bind <| hnotes.bind <| (restores_tempo s.tempo).bind hmeasures

theorem restores_chart (c : Chart α) : Restores (chart? (ofChart c)) c.song.numbers c := by
  have hwarnings : (ofList ofLocatedWarning c.warnings : Datum α).list? locatedWarning? = some c.warnings :=
    list?_ofList locatedWarning?_ofLocatedWarning c.warnings
  have hchart : chart? (ofChart c) = (song? (ofSong c.song)).map fun song => ⟨song, c.warnings⟩ := by
    simp [chart?, ofChart, hwarnings, Option.map_eq_bind]
  rw [hchart]
  exact (restores_song c.song).map _

/-! ## What reading comes to -/

/-- The changes of beats per measure of an archived chart, with their seconds. -/
def measureAnchors? (d : Datum α) : Option (List (MeasureAnchor α)) := do
  let song ← d.field? "song"
  let measures ← song.field? "measure_timeline"
  measures.get? (list? measureAnchor?) "anchors"

/-- A chart or an error as data. -/
def ofOutcome : Except ChartError (Chart α) → Datum α
  | .error e => ofError e
  | .ok c => ofChart c

/-- All numbers of a chart.  An error has none. -/
def numbers : Except ChartError (Chart α) → List α
  | .error _ => []
  | .ok c => c.song.numbers

/-- What is read back is what was written, the seconds of measures included. -/
def Survives : Except ChartError (Chart α) → Prop
  | .error e => error? (ofError e : Datum α) = some e
  | .ok c => chart? (ofChart c) = some c ∧ measureAnchors? (ofChart c) = some c.song.measureAnchors

theorem restores_measureAnchors (c : Chart α) : Restores (measureAnchors? (ofChart c))
    (c.song.measureAnchors.flatMap MeasureAnchor.numbers) c.song.measureAnchors := by
  have hanchors := restores_list restores_measureAnchor c.song.measureAnchors
  rw [List.map_id'] at hanchors
  exact hanchors

theorem survives_iff (outcome : Except ChartError (Chart α)) :
    Survives outcome ↔ ∀ x ∈ numbers outcome, Scalar.isFinite x = true := by
  cases outcome with
  | error e => exact iff_of_true (error?_ofError e) nofun
  | ok c =>
    refine ⟨fun h => (restores_chart c).eq_some_iff.1 h.1, fun h => ⟨(restores_chart c).whole h, ?_⟩⟩
    refine (restores_measureAnchors c).whole fun x hx => h x ?_
    exact List.mem_cons_of_mem _ (List.mem_append_right _ (List.mem_append_right _ hx))

theorem ofChart_ne_ofError (c : Chart α) (e : ChartError) : ofChart c ≠ ofError e := by
  cases e <;> simp [ofChart, ofError, variant]

theorem outcome_eq_of_ofOutcome_eq {outcome outcome' : Except ChartError (Chart α)} (h : Survives outcome)
    (hdata : ofOutcome outcome = ofOutcome outcome') (h' : Survives outcome') : outcome = outcome' := by
  cases outcome with
  | error e =>
    cases outcome' with
    | error e' =>
      have herror : error? (ofError e : Datum α) = some e' := by
        rw [show ofError e = ofError e' from hdata, h']
      rw [Option.some.inj (h.symm.trans herror)]
    | ok c => exact absurd hdata.symm (ofChart_ne_ofError c e)
  | ok c =>
    cases outcome' with
    | error e => exact absurd hdata (ofChart_ne_ofError c e)
    | ok c' =>
      have hchart : chart? (ofChart c) = some c' := by
        rw [show ofChart c = ofChart c' from hdata, h'.1]
      rw [Option.some.inj (h.1.symm.trans hchart)]

/-- Whatever reading a chart comes to is the same after it was written and read, if and only if all its
numbers are finite.  So the data of finite numbers tell what they were written from. -/
theorem survives_iff_finite :
    (∀ outcome : Except ChartError (Chart α),
      Survives outcome ↔ ∀ x ∈ numbers outcome, Scalar.isFinite x = true) ∧
    ∀ outcome outcome' : Except ChartError (Chart α),
      (∀ x ∈ numbers outcome, Scalar.isFinite x = true) →
        (∀ x ∈ numbers outcome', Scalar.isFinite x = true) →
          ofOutcome outcome = ofOutcome outcome' → outcome = outcome' := by
  refine ⟨survives_iff, fun outcome outcome' h h' hdata => ?_⟩
  exact outcome_eq_of_ofOutcome_eq ((survives_iff outcome).2 h) hdata ((survives_iff outcome').2 h')

/-- A slide of a chart with a title survives, and no other outcome has its data.  At the slowest tempo a tap
is never reached: its seconds are infinite, and its chart does not survive. -/
theorem survives_iff_finite_of_slide :
    (∃ chart, (Chart.read (Prompter.always .halt)
        "#TITLE x\n#BPM01:90\n#00230a:12\n#00330a:22".toList).result = .ok chart ∧ Survives (.ok chart) ∧
      ∀ outcome : Except ChartError (Chart Float), Survives outcome →
        ofOutcome (.ok chart) = ofOutcome outcome → .ok chart = outcome) ∧
    ∃ chart, (Chart.read (Prompter.always .halt) "#BPM01:1e-307\n#99910:12".toList).result = .ok chart ∧
      ¬ Survives (.ok chart) := by
  obtain ⟨-, chart, -, hok, hfinite⟩ := Chart.exists_read_of_check (Prompter.always .halt)
    "#TITLE x\n#BPM01:90\n#00230a:12\n#00330a:22".toList
    (fun _ chart => chart.song.numbers.all Scalar.isFinite)
    (by
      unfold Chart.ofTokens Chart.resolve Chart.assembleSong BpmTimeline.ofChanges?
      rw [Token.scan_eq_mapM, BpmTimeline.sort_eq_insertionSort]
      decide +kernel)
  obtain ⟨-, slow, -, hslow, hgap⟩ := Chart.exists_read_of_check (Prompter.always .halt)
    "#BPM01:1e-307\n#99910:12".toList
    (fun _ chart => chart.song.numbers.any fun x => !Scalar.isFinite x)
    (by
      unfold Chart.ofTokens Chart.resolve Chart.assembleSong BpmTimeline.ofChanges?
      rw [Token.scan_eq_mapM, BpmTimeline.sort_eq_insertionSort]
      decide +kernel)
  have hwhole : ∀ x ∈ numbers (.ok chart), Scalar.isFinite x = true := List.all_eq_true.1 hfinite
  have hsurvives : Survives (.ok chart) := (survives_iff_finite.1 (.ok chart)).2 hwhole
  refine ⟨⟨chart, hok, hsurvives, fun outcome h hdata => ?_⟩, slow, hslow, ?_⟩
  · exact survives_iff_finite.2 (.ok chart) outcome hwhole ((survives_iff_finite.1 outcome).1 h) hdata
  · intro h
    obtain ⟨x, hx, hx'⟩ := List.any_eq_true.1 hgap
    rw [(survives_iff_finite.1 (.ok slow)).1 h x hx] at hx'
    cases hx'

end Songs

end Archive

end RhythmChart
