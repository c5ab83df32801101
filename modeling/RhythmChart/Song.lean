import RhythmChart.Assembly
import RhythmChart.Timeline

/-!
# Songs

A song is what a chart comes to: notes placed on seconds, with the two timelines that placed them.
-/

namespace RhythmChart

/-- Facts about a song that do not place its notes, and the wave offset. -/
structure SongInfo (α : Type) where
  title : Option String
  artist : Option String
  designer : Option String
  /-- The seconds from the start of the audio to the beat zero. -/
  waveOffset : α
  deriving DecidableEq

structure Song (α : Type) [Scalar α] where
  info : SongInfo α
  notes : Array (Note (Point α))
  tempo : BpmTimeline α
  measures : MeasureTimeline α
  /-- The seconds of the changes of beats per measure, zero as long as they are not placed. -/
  measureSeconds : List α := measures.knots.toList.map fun _ => ((0 : Nat) : α)
  /-- Each change has its seconds. -/
  length_measureSeconds : measureSeconds.length = measures.knots.size := by simp
  deriving DecidableEq

/-- A change of beats per measure, with its beat and its seconds. -/
structure MeasureAnchor (α : Type) [Scalar α] extends MeasureChange α where
  beat : α
  seconds : α

variable {α : Type} [Scalar α]

def MeasureAnchor.knot (a : MeasureAnchor α) : Knot (MeasureChange α) α := ⟨a.toMeasureChange, a.beat⟩

namespace Song

def measureAnchors (s : Song α) : List (MeasureAnchor α) :=
  (s.measures.knots.toList.zip s.measureSeconds).map fun (k, seconds) => ⟨k.change, k.value, seconds⟩

theorem map_knot_measureAnchors (s : Song α) :
    s.measureAnchors.map MeasureAnchor.knot = s.measures.knots.toList := by
  rw [measureAnchors, List.map_map]
  exact List.map_fst_zip (Nat.le_of_eq s.length_measureSeconds.symm)

theorem map_change_measureAnchors (s : Song α) :
    s.measureAnchors.map MeasureAnchor.toMeasureChange = s.measures.knots.toList.map Knot.change := by
  rw [← s.map_knot_measureAnchors, List.map_map]
  rfl

theorem map_seconds_measureAnchors (s : Song α) :
    s.measureAnchors.map MeasureAnchor.seconds = s.measureSeconds := by
  rw [measureAnchors, List.map_map]
  exact List.map_snd_zip (Nat.le_of_eq s.length_measureSeconds)

/-- The notes that begin at `start` or later and before `stop`, by a search for the first of them. -/
def notesIn (s : Song α) (start stop : α) : List (Note (Point α)) :=
  let i := partitionPoint s.notes fun n => decide (n.firstTime < start)
  (s.notes.toList.drop i).takeWhile fun n => decide (n.firstTime < stop)

/-- The greatest of the seconds when notes are over. -/
def lastTime? (s : Song α) : Option α :=
  Scalar.greatest? (s.notes.toList.map fun n => n.final.seconds)

end Song

end RhythmChart
