import RhythmChart.Archive.Song
import RhythmChart.Archive.Token
import RhythmChart.Main
import RhythmChart.Proofs.Archive
import RhythmChart.Proofs.Chronology
import RhythmChart.Proofs.DeclarationOrder
import RhythmChart.Proofs.Decoding
import RhythmChart.Proofs.Definitions
import RhythmChart.Proofs.Diagnostics
import RhythmChart.Proofs.Failure
import RhythmChart.Proofs.Independence
import RhythmChart.Proofs.LastPoint
import RhythmChart.Proofs.Layout
import RhythmChart.Proofs.LetterCase
import RhythmChart.Proofs.Lockstep
import RhythmChart.Proofs.Notes
import RhythmChart.Proofs.NotesIn
import RhythmChart.Proofs.Origin
import RhythmChart.Proofs.Repetitions
import RhythmChart.Proofs.Resolution
import RhythmChart.Proofs.Scalar.Arithmetic
import RhythmChart.Proofs.Scalar.Binary64
import RhythmChart.Proofs.Scalar.Monotone
import RhythmChart.Proofs.Scalar.Naturals
import RhythmChart.Proofs.Scalar.Rounding
import RhythmChart.Proofs.Slides.Emission
import RhythmChart.Proofs.Slides.Forward
import RhythmChart.Proofs.Slides.Pairing
import RhythmChart.Proofs.Source.Bounds
import RhythmChart.Proofs.Source.Channels
import RhythmChart.Proofs.Source.Concatenation
import RhythmChart.Proofs.Source.Grammar
import RhythmChart.Proofs.Source.Lines
import RhythmChart.Proofs.Source.Printed
import RhythmChart.Proofs.Source.Walk
import RhythmChart.Proofs.TempoChanges
import RhythmChart.Proofs.TimeOrder
import RhythmChart.Proofs.Timeline.Linear
import RhythmChart.Proofs.Timeline.Measures
import RhythmChart.Proofs.Timeline.Monotone
import RhythmChart.Proofs.Timeline.Rounded
import RhythmChart.Proofs.Timeline.Scan
import RhythmChart.Proofs.Timeline.Signs
import RhythmChart.Proofs.Translation
import RhythmChart.Proofs.WellFormed
