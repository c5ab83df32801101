import RhythmChart.Archive.Issue
import RhythmChart.Token

/-!
# Archived tokens

Tokens as data.
-/

namespace RhythmChart.Archive

variable {α : Type} [Scalar α]

def ofChannel : Channel → Datum α
  | .beatsPerMeasure => .text "BeatsPerMeasure"
  | .bpmChange => .text "BpmChange"
  | .tap lane => .variant "Tap" (.record [("lane", .nat lane)])
  | .slide lane channel =>
    .variant "Slide" (.record [("lane", .nat lane), ("channel", .nat channel)])
  | .unsupported kind =>
    .variant "Unsupported" (.record [("kind", .text (String.singleton kind))])

def ofToken : Token α → Datum α
  | .artist text => .variant "Artist" (.text text)
  | .designer text => .variant "Designer" (.text text)
  | .title text => .variant "Title" (.text text)
  | .waveOffset value => .variant "WaveOffset" (.ofScalar value.val)
  | .beatsPerMeasure track value =>
    .variant "BeatsPerMeasure" (.record [("track", ofTrack track), ("beats", .ofScalar value.val)])
  | .bpmDefinition id value =>
    .variant "BpmDef" (.record [("id", ofBpmId id), ("bpm", .ofScalar value.val)])
  | .message track channel payload =>
    .variant "Message"
      (.record
        [("track", ofTrack track), ("channel", ofChannel channel), ("message", .text payload)])
  | .header name args =>
    .variant "Header" (.record [("name", .text name), ("args", .text args)])
  | .remark text => .variant "NotACommand" (.text text)

end RhythmChart.Archive
