import RhythmChart.Chart
import RhythmChart.Proofs.Settling
import RhythmChart.Proofs.Slots
import RhythmChart.Proofs.Timeline.Changes

/-!
# Reading a chart in stages

A chart is read token by token, and each token passes on what it has to say.  `beatsDeclarations`,
`bpmDeclarations`, `placements`, `laneLines` and `songInfo` take the parts of a chart out of its tokens, the
placements from the characters of their slots.  `resolve_eq_stages` says that the reading token by token is the
reading part by part.  The keys that each line declares are listed by `tracks`, `definedNames` and
`placedNames`; there is one declaration for each of them, in order (`DeclaredBy`), and it has the value that the
line writes (`Declared`).
-/

namespace RhythmChart

variable {α : Type} [Scalar α]

namespace Token

/-! ## Parts of a chart -/

def beatsDeclarations (ts : List (Spanned (Token α))) : List (Declaration Track (Finite α)) :=
  ts.filterMap fun t =>
    match t.content with
    | .beatsPerMeasure track value => some ⟨track, value, t.span⟩
    | _ => none

def bpmDeclarations (ts : List (Spanned (Token α))) : List (Declaration BpmId (Finite α)) :=
  ts.filterMap fun t =>
    match t.content with
    | .bpmDefinition id value => some ⟨id, value, t.span⟩
    | _ => none

/-- The placements of a chart with their times, one for each name in a message on the BPM channel. -/
def placementTimes (ts : List (Spanned (Token α))) : List (Declaration BpmId SlotTime) :=
  ts.flatMap fun t =>
    match t.content with
    | .message track .bpmChange payload =>
      (Slot.names track payload.toList).map fun (id, time) => ⟨id, time, t.span⟩
    | _ => []

/-- The declarations of placements, each at the beat of its time. -/
def placements (measures : MeasureTimeline α) (ts : List (Spanned (Token α))) :
    List (Declaration BpmId (Placement α)) :=
  (placementTimes ts).map fun d => ⟨d.key, ⟨d.value, measures.beat d.value.measure⟩, d.span⟩

/-- The placements are the objects of the messages on the BPM channel. -/
theorem placements_eq_flatMap (measures : MeasureTimeline α) (ts : List (Spanned (Token α))) :
    placements measures ts = ts.flatMap fun t =>
      match t.content with
      | .message track .bpmChange payload =>
        Chart.placementsOf t.span (Slot.decode measures track payload.toList)
      | _ => [] := by
  rw [placements, placementTimes, List.map_flatMap]
  congr 1
  funext t
  obtain ⟨content, span⟩ := t
  cases content with
  | message track channel payload =>
    cases channel with
    | bpmChange =>
      have hslots := congrArg
        (List.map fun s : BpmId × SlotTime × α =>
          (⟨s.1, ⟨s.2.1, s.2.2⟩, span⟩ : Declaration BpmId (Placement α)))
        (Slot.map_decode measures track payload.toList)
      rw [List.map_map, List.map_map] at hslots
      dsimp only
      rw [List.map_map]
      exact hslots.symm
    | _ => rfl
  | _ => rfl

/-- A placement of a name as a slot of a message on the BPM channel writes it: at the time of the slot, and at
the beat of this time. -/
def PlacedAt (measures : MeasureTimeline α) (ts : List (Spanned (Token α))) (id : BpmId)
    (p : Spanned (Placement α)) : Prop :=
  ∃ (track : Track) (payload : String) (i : Fin (payload.toList.length / 2)),
    ⟨.message track .bpmChange payload, p.span⟩ ∈ ts ∧ Slot.idAt? payload.toList i = some id ∧
      p.content.time = SlotTime.ofSlot track i ∧ p.content.beat = measures.beat
        ((track.number : α) + (p.content.time.numerator : α) / (p.content.time.denominator : α))

theorem placedAt_of_mem {measures : MeasureTimeline α} {ts : List (Spanned (Token α))}
    {d : Declaration BpmId (Placement α)} (h : d ∈ placements measures ts) :
    PlacedAt measures ts d.key ⟨d.value, d.span⟩ := by
  obtain ⟨d, hd, rfl⟩ := List.mem_map.1 h
  obtain ⟨⟨content, span⟩, hmem, hd⟩ := List.mem_flatMap.1 hd
  split at hd
  · next track payload heq =>
    cases heq
    obtain ⟨⟨id, time⟩, hname, rfl⟩ := List.mem_map.1 hd
    obtain ⟨i, -, hi⟩ := List.mem_filterMap.1 hname
    obtain ⟨id', hid, heq⟩ := Option.map_eq_some_iff.1 hi
    cases heq
    exact ⟨track, payload, i, hmem, hid, rfl, rfl⟩
  · cases hd

def laneLines (measures : MeasureTimeline α) (ts : List (Spanned (Token α))) : List (LaneLine α) :=
  ts.filterMap fun t =>
    match t.content with
    | .message track (.tap lane) payload =>
      some (.taps lane (Slot.decode measures track payload.toList))
    | .message track (.slide lane channel) payload =>
      some (.slides lane channel (Slot.decode measures track payload.toList) t.span)
    | _ => none

theorem mem_beatsDeclarations_iff {ts : List (Spanned (Token α))}
    {d : Declaration Track (Finite α)} :
    d ∈ beatsDeclarations ts ↔ ⟨.beatsPerMeasure d.key d.value, d.span⟩ ∈ ts := by
  rw [beatsDeclarations, List.mem_filterMap]
  constructor
  · rintro ⟨⟨content, span⟩, hmem, h⟩
    cases content <;> cases h
    exact hmem
  · intro hmem
    exact ⟨_, hmem, rfl⟩

theorem mem_bpmDeclarations_iff {ts : List (Spanned (Token α))}
    {d : Declaration BpmId (Finite α)} :
    d ∈ bpmDeclarations ts ↔ ⟨.bpmDefinition d.key d.value, d.span⟩ ∈ ts := by
  rw [bpmDeclarations, List.mem_filterMap]
  constructor
  · rintro ⟨⟨content, span⟩, hmem, h⟩
    cases content <;> cases h
    exact hmem
  · intro hmem
    exact ⟨_, hmem, rfl⟩

theorem taps_mem_laneLines_iff {measures : MeasureTimeline α} {ts : List (Spanned (Token α))}
    {lane : Nat} {slots : List (Slot α)} : .taps lane slots ∈ laneLines measures ts ↔
      ∃ track payload span, ⟨.message track (.tap lane) payload, span⟩ ∈ ts ∧
        slots = Slot.decode measures track payload.toList := by
  rw [laneLines, List.mem_filterMap]
  constructor
  · rintro ⟨⟨content, span⟩, hmem, h⟩
    split at h <;> cases h
    next heq => cases heq; exact ⟨_, _, _, hmem, rfl⟩
  · rintro ⟨track, payload, span, hmem, rfl⟩
    exact ⟨_, hmem, rfl⟩

theorem slides_mem_laneLines_iff {measures : MeasureTimeline α} {ts : List (Spanned (Token α))}
    {lane channel : Nat} {slots : List (Slot α)} {span : Span} :
    .slides lane channel slots span ∈ laneLines measures ts ↔
      ∃ track payload, ⟨.message track (.slide lane channel) payload, span⟩ ∈ ts ∧
        slots = Slot.decode measures track payload.toList := by
  rw [laneLines, List.mem_filterMap]
  constructor
  · rintro ⟨⟨content, span⟩, hmem, h⟩
    split at h <;> cases h
    next heq => cases heq; exact ⟨_, _, hmem, rfl⟩
  · rintro ⟨track, payload, hmem, rfl⟩
    exact ⟨_, hmem, rfl⟩

/-! ## What lines declare -/

section Keys

variable {κ ν : Type}

def tracks : Token α → List Track
  | .beatsPerMeasure track _ => [track]
  | _ => []

def definedNames : Token α → List BpmId
  | .bpmDefinition id _ => [id]
  | _ => []

def placedNames : Token α → List BpmId
  | .message _ .bpmChange payload =>
    (List.range (payload.toList.length / 2)).filterMap (Slot.idAt? payload.toList)
  | _ => []

/-- The keys that some lines declare, in order. -/
def keysOf (keys : Token α → List κ) (ts : List (Spanned (Token α))) : List κ :=
  ts.flatMap fun t => keys t.content

/-- The declarations are those that the lines write: one for each key, at the place of its line. -/
def DeclaredBy (keys : Token α → List κ) (ts : List (Spanned (Token α)))
    (ds : List (Declaration κ ν)) : Prop :=
  ds.map (fun d => (d.key, d.span)) = ts.flatMap fun t => (keys t.content).map fun k => (k, t.span)

theorem declaredBy_beats (ts : List (Spanned (Token α))) :
    DeclaredBy tracks ts (beatsDeclarations ts) := by
  rw [DeclaredBy, beatsDeclarations, List.map_filterMap, List.filterMap_eq_flatMap_toList]
  congr 1
  funext t
  obtain ⟨content, span⟩ := t
  cases content <;> rfl

theorem declaredBy_definitions (ts : List (Spanned (Token α))) :
    DeclaredBy definedNames ts (bpmDeclarations ts) := by
  rw [DeclaredBy, bpmDeclarations, List.map_filterMap, List.filterMap_eq_flatMap_toList]
  congr 1
  funext t
  obtain ⟨content, span⟩ := t
  cases content <;> rfl

theorem declaredBy_placements (measures : MeasureTimeline α) (ts : List (Spanned (Token α))) :
    DeclaredBy placedNames ts (placements measures ts) := by
  rw [DeclaredBy, placements_eq_flatMap, List.map_flatMap]
  congr 1
  funext t
  obtain ⟨content, span⟩ := t
  cases content with
  | message track channel payload =>
    cases channel with
    | bpmChange =>
      change (Chart.placementsOf span _).map _ = List.map _ (List.filterMap _ _)
      rw [← Slot.map_bpmId_decode measures track, Chart.placementsOf, List.map_map, List.map_map]
      rfl
    | _ => rfl
  | _ => rfl

theorem DeclaredBy.map_key {keys : Token α → List κ} {ts : List (Spanned (Token α))}
    {ds : List (Declaration κ ν)} (h : DeclaredBy keys ts ds) : ds.map Declaration.key = keysOf keys ts := by
  have hfst := congrArg (List.map Prod.fst) h
  rw [List.map_map, List.map_flatMap] at hfst
  simp only [List.map_map, Function.comp_def, List.map_id'] at hfst
  exact hfst

/-- The declarations of a chart are those that its lines write, group by group: one for each key, with the value
that the line gives to it. -/
structure Declared (measures : MeasureTimeline α) (ts : List (Spanned (Token α)))
    (beats : List (Declaration Track (Finite α))) (definitions : List (Declaration BpmId (Finite α)))
    (placements : List (Declaration BpmId (Placement α))) : Prop where
  tracks : DeclaredBy tracks ts beats
  definedNames : DeclaredBy definedNames ts definitions
  placedNames : DeclaredBy placedNames ts placements
  beats : ∀ d ∈ beats, ⟨.beatsPerMeasure d.key d.value, d.span⟩ ∈ ts
  definitions : ∀ d ∈ definitions, ⟨.bpmDefinition d.key d.value, d.span⟩ ∈ ts
  placements : ∀ d ∈ placements, PlacedAt measures ts d.key ⟨d.value, d.span⟩

theorem declared (measures : MeasureTimeline α) (ts : List (Spanned (Token α))) :
    Declared measures ts (beatsDeclarations ts) (bpmDeclarations ts) (placements measures ts) where
  tracks := declaredBy_beats ts
  definedNames := declaredBy_definitions ts
  placedNames := declaredBy_placements measures ts
  beats _ := mem_beatsDeclarations_iff.1
  definitions _ := mem_bpmDeclarations_iff.1
  placements _ := placedAt_of_mem

end Keys

/-! ## Facts about the song -/

def title? : Token α → Option String
  | .title text => some text
  | _ => none

def artist? : Token α → Option String
  | .artist text => some text
  | _ => none

def designer? : Token α → Option String
  | .designer text => some text
  | _ => none

def waveOffset? : Token α → Option α
  | .waveOffset value => some value.val
  | _ => none

/-- The last of some facts in the tokens. -/
def last? {β : Type} (fact : Token α → Option β) (ts : List (Spanned (Token α))) : Option β :=
  (ts.filterMap fun t => fact t.content).getLast?

/-- The facts about the song after some tokens.  Of several tokens of a kind the last counts. -/
def infoFrom (info : SongInfo α) (ts : List (Spanned (Token α))) : SongInfo α where
  title := (last? title? ts).or info.title
  artist := (last? artist? ts).or info.artist
  designer := (last? designer? ts).or info.designer
  waveOffset := (last? waveOffset? ts).getD info.waveOffset

def songInfo (ts : List (Spanned (Token α))) : SongInfo α := infoFrom Collected.empty.info ts

@[simp]
theorem last?_nil {β : Type} (fact : Token α → Option β) : last? fact [] = none := rfl

theorem last?_cons {β : Type} (fact : Token α → Option β) (t : Spanned (Token α))
    (ts : List (Spanned (Token α))) :
    last? fact (t :: ts) = (last? fact ts).or (fact t.content) := by
  unfold last?
  rw [List.filterMap_cons]
  cases h : fact t.content with
  | none => simp only [Option.or_none]
  | some b => simp [List.getLast?_cons, Option.or_some]

theorem infoFrom_singleton (info : SongInfo α) (t : Spanned (Token α)) :
    infoFrom info [t] =
      { title := (title? t.content).or info.title
        artist := (artist? t.content).or info.artist
        designer := (designer? t.content).or info.designer
        waveOffset := (waveOffset? t.content).getD info.waveOffset } := by
  simp only [infoFrom, last?_cons, last?_nil, Option.none_or]

end Token

namespace Chart

open Token

variable (prompter : Prompter α) (measures : MeasureTimeline α)

/-! ## The reading token by token -/

/-- The beats of measures are settled in order. -/
theorem foldlM_collectBeats (kept : Kept Track (Finite α)) (ts : List (Spanned (Token α))) :
    ts.foldlM (collectBeats prompter) kept =
      (beatsDeclarations ts).foldlM (declare prompter .beatsPerMeasure) kept := by
  induction ts generalizing kept with
  | nil => rfl
  | cons t ts ih =>
    obtain ⟨content, span⟩ := t
    cases content with
    | beatsPerMeasure track value => exact bind_congr fun kept => ih kept
    | _ => exact (pure_bind kept _).trans (ih kept)

/-- What is collected from some tokens after others, when their definitions are settled. -/
def collected (c : Collected α) (ts : List (Spanned (Token α))) (defined : Kept BpmId (Finite α)) :
    Collected α where
  info := infoFrom c.info ts
  defined := defined
  placements := c.placements ++ placements measures ts
  lines := c.lines ++ laneLines measures ts

theorem collected_nil (c : Collected α) : collected measures c [] c.defined = c := by
  simp [collected, infoFrom, placements, placementTimes, laneLines]

/-- What one token and then others add is what they add together. -/
theorem collected_cons (c : Collected α) (t : Spanned (Token α)) (ts : List (Spanned (Token α)))
    (defined defined' : Kept BpmId (Finite α)) :
    collected measures (collected measures c [t] defined) ts defined' =
      collected measures c (t :: ts) defined' := by
  have hinfo : infoFrom (infoFrom c.info [t]) ts = infoFrom c.info (t :: ts) := by
    simp only [infoFrom, last?_cons, last?_nil, Option.none_or, Option.or_assoc, SongInfo.mk.injEq,
      true_and]
    cases last? waveOffset? ts <;> rfl
  have hplacements : placements measures (t :: ts) = placements measures [t] ++ placements measures ts := by
    simp [placements, placementTimes]
  have hlines : laneLines measures (t :: ts) = laneLines measures [t] ++ laneLines measures ts := by
    rw [← List.singleton_append, laneLines, List.filterMap_append]
    rfl
  have happend {β : Type} (xs : Array β) (l l' : List β) : xs ++ l ++ l' = xs ++ (l ++ l') :=
    Array.ext' (by simp)
  simp only [collected, hinfo, hplacements, hlines, happend]

theorem collect_eq (c : Collected α) (t : Spanned (Token α)) :
    collect prompter measures c t = (do
      let defined ← (bpmDeclarations [t]).foldlM (declare prompter .bpmDefinition) c.defined
      return collected measures c [t] defined) := by
  obtain ⟨content, span⟩ := t
  cases content with
  | message track channel payload =>
    cases channel <;>
      simp [collect, collected, bpmDeclarations, infoFrom_singleton, placements_eq_flatMap, laneLines,
        title?, artist?, designer?, waveOffset?]
  | _ =>
    simp [collect, collected, bpmDeclarations, infoFrom_singleton, placements_eq_flatMap, laneLines, title?,
      artist?, designer?, waveOffset?]

/-- All tokens: the definitions are settled in order, and the other parts pass through. -/
theorem foldlM_collect (c : Collected α) (ts : List (Spanned (Token α))) :
    ts.foldlM (collect prompter measures) c = (do
      let defined ← (bpmDeclarations ts).foldlM (declare prompter .bpmDefinition) c.defined
      return collected measures c ts defined) := by
  induction ts generalizing c with
  | nil => simp [bpmDeclarations, collected_nil]
  | cons t ts ih =>
    have hsplit : bpmDeclarations (t :: ts) = bpmDeclarations [t] ++ bpmDeclarations ts := by
      rw [← List.singleton_append, bpmDeclarations, List.filterMap_append]
      rfl
    simp only [List.foldlM_cons, collect_eq, ih, hsplit, List.foldlM_append, bind_assoc, pure_bind,
      collected_cons]
    rfl

/-- The reading token by token is the reading part by part. -/
theorem resolve_eq_stages (ts : List (Spanned (Token α))) :
    resolve prompter ts = (do
      let beats ← settle prompter .beatsPerMeasure (beatsDeclarations ts)
      let measures := measureTimeline beats
      let defined ← settle prompter .bpmDefinition (bpmDeclarations ts)
      assembleSong prompter measures
        { info := songInfo ts
          defined
          placements := (placements measures ts).toArray
          lines := (laneLines measures ts).toArray }) := by
  have hempty (measures : MeasureTimeline α) (defined : Kept BpmId (Finite α)) :
      collected measures .empty ts defined =
        ⟨songInfo ts, defined, (placements measures ts).toArray, (laneLines measures ts).toArray⟩ := by
    simp [collected, Collected.empty, songInfo]
  simp only [resolve, foldlM_collectBeats, foldlM_collect, bind_assoc, pure_bind, hempty]
  rfl

/-! ## The measures of an accepted chart -/

/-- The changes that the beats kept make, in the order of their tracks. -/
def measureChanges (kept : Kept Track (Finite α)) : List (MeasureChange α) :=
  kept.toList.map fun (track, beats) => ⟨(track.number : α), beats.content⟩

theorem measureTimeline_eq (kept : Kept Track (Finite α)) :
    measureTimeline kept = MeasureTimeline.ofChanges (measureChanges kept) := rfl

/-- Without a change that is kept, four beats count from the beginning. -/
theorem changes_measureTimeline (kept : Kept Track (Finite α)) :
    (measureTimeline kept).knots.toList.map Knot.change =
      if kept.isEmpty then [⟨((0 : Nat) : α), .four⟩] else measureChanges kept := by
  have hnil : measureChanges kept = [] ↔ kept.isEmpty = true := by
    rw [measureChanges, List.map_eq_nil_iff, ← List.isEmpty_iff, Std.TreeMap.isEmpty_toList]
  rw [measureTimeline_eq]
  split
  · next hempty =>
    rw [hnil.2 hempty, MeasureTimeline.map_change_ofChanges_nil]
    rfl
  · next hne => exact MeasureTimeline.map_change_ofChanges (mt hnil.1 hne)

theorem measures_assembleSong {measures : MeasureTimeline α} {c : Collected α} {log log' : Log α}
    {song : Song α} (h : Yields (assembleSong prompter measures c) log song log') :
    song.measures = measures := by
  obtain ⟨placed, _, -, h⟩ := Yields.bind_iff.1 h
  obtain ⟨defined, _, -, h⟩ := Yields.bind_iff.1 h
  obtain ⟨changes, _, -, h⟩ := Yields.bind_iff.1 h
  split at h
  · exact absurd h Yields.not_stop
  · obtain ⟨_, _, -, h⟩ := Yields.bind_iff.1 h
    obtain ⟨rfl, -⟩ := Yields.pure_iff.1 h
    rfl

theorem yields_of_ofTokens_ok {ts : List (Spanned (Token α))} {chart : Chart α}
    (h : (ofTokens prompter ts).result = .ok chart) :
    ∃ log, Yields (resolve prompter ts) Log.empty chart.song log := by
  unfold ofTokens at h
  rcases hrun : (resolve prompter ts).run.run Log.empty with ⟨_ | song, log⟩ <;> rw [hrun] at h
  · cases h
  · cases h
    exact ⟨log, hrun⟩

/-- What holds of a chart that is accepted can be computed. -/
theorem exists_ofTokens_of_check (ts : List (Spanned (Token α))) (check : Chart α → Bool)
    (h : (ofTokens prompter ts).result.toOption.any check = true) :
    ∃ chart, (ofTokens prompter ts).result = .ok chart ∧ check chart = true := by
  cases hresult : (ofTokens prompter ts).result with
  | error e =>
    rw [hresult] at h
    cases h
  | ok chart =>
    rw [hresult] at h
    exact ⟨chart, rfl, h⟩

/-- The measures of an accepted chart are those of the settled declarations. -/
theorem measures_of_ofTokens_ok {ts : List (Spanned (Token α))} {chart : Chart α}
    {kept : Kept Track (Finite α)} {log : Log α}
    (hkept : Yields (settle prompter .beatsPerMeasure (beatsDeclarations ts)) Log.empty kept log)
    (h : (ofTokens prompter ts).result = .ok chart) :
    chart.song.measures = measureTimeline kept := by
  obtain ⟨_, hresolve⟩ := yields_of_ofTokens_ok prompter h
  rw [resolve_eq_stages] at hresolve
  obtain ⟨kept', _, hkept', hresolve⟩ := Yields.bind_iff.1 hresolve
  obtain ⟨_, _, -, hassemble⟩ := Yields.bind_iff.1 hresolve
  rw [measures_assembleSong prompter hassemble, Yields.unique hkept hkept']

end Chart

end RhythmChart
