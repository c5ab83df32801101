import RhythmChart.Chart
import RhythmChart.Decimal
import RhythmChart.Issue

/-!
# Listing of a song

A listing is a title, the changes of tempo if they are asked for, and the seconds of every note, each on
a line of its own.  `Printout.ofSource` is all that listing a file comes to: the listing, the reports
about the chart, and the exit code.
-/

namespace RhythmChart

namespace Listing

/-- The prompter of a listing: the incoming declaration counts, with a warning. -/
def prompter : Prompter Float := Prompter.always (.keep .newer true)

/-- The line of a change of tempo: three places for the BPM, four for the seconds. -/
def tempoLine (k : Knot (BpmChange Float) Float) : List Char :=
  "BPM ".toList ++ Places.field 8 3 k.change.bpm.val ++ " at ".toList ++
    Places.field 10 4 k.value ++ ['s']

/-- The line of a note: the seconds of its point, or of both its ends. -/
def noteLine : Note (Point Float) → List Char
  | .tap point => Places.text 4 point.seconds
  | .slide _ start stop => Places.text 4 start.seconds ++ " : ".toList ++ Places.text 4 stop.seconds

def lines (withTempo : Bool) (song : Song Float) : List (List Char) :=
  song.info.title.toList.map String.toList ++
    (if withTempo then song.tempo.knots.toList.map tempoLine else []) ++
    song.notes.toList.map noteLine

/-- The listing, each line ended by a line feed. -/
def text (withTempo : Bool) (song : Song Float) : String :=
  String.ofList ((lines withTempo song).flatMap fun l => l ++ ['\n'])

end Listing

structure Printout where
  /-- Zero, or one if there is no song. -/
  exitCode : Nat
  listing : String
  reports : List Report

/-- Lists the song of a chart's text. -/
def Printout.ofSource (withTempo : Bool) (file : String) (source : List Char) : Printout :=
  match (Chart.read Listing.prompter source).result with
  | .ok chart =>
    ⟨0, Listing.text withTempo chart.song, chart.warnings.map (Report.ofWarning file)⟩
  | .error e => ⟨1, "", [Report.ofError file e]⟩

end RhythmChart
