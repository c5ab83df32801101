import RhythmChart.Listing

/-!
# Command line

`[--bpm] FILE` lists the notes of a chart file on standard output, and reports on standard error.
-/

namespace RhythmChart

def Report.text (r : Report) : String :=
  let kind := match r.severity with
    | .warning => "Warning"
    | .error => "Error"
  kind ++ ": " ++ r.title ++ "\n  " ++ r.file ++ ":" ++ toString r.span.start ++ "-" ++
    toString r.span.stop ++ ": " ++ r.label

def listFile (withTempo : Bool) (file : String) : IO UInt32 := do
  let source ← IO.FS.readFile file
  let printout := Printout.ofSource withTempo file source.toList
  for report in printout.reports do
    IO.eprintln report.text
  IO.print printout.listing
  return printout.exitCode.toUInt32

end RhythmChart

/-- Lists the notes of the chart file among the arguments. -/
def main (args : List String) : IO UInt32 := do
  match args.filter (· != "--bpm") with
  | [file] => RhythmChart.listFile (args.contains "--bpm") file
  | _ =>
    IO.eprintln "usage: [--bpm] FILE"
    return 2
