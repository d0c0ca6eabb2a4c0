import Melody.Text.Fields
import Melody.Text.Quoted
import Melody.Decimal.Natural
import Melody.Decimal.Layout
import Melody.Decimal.Scaling
import Melody.Error
import Melody.ShiftTable
import Melody.Pitch
import Melody.Pitch.Token
import Melody.Scale
import Melody.Chord
import Melody.Notation.Strict
import Melody.Song
import Melody.InPlace
import Melody.Midi.File
import Melody.Midi.Inspection
import Melody.Json.Numeral
import Melody.Json.Literal
import Melody.Json.Reading
import Melody.Score.Document
import Melody.Song.Archive
import Melody.Main
import Melody.Proofs.StableSort
import Melody.Proofs.Timeline.Order
import Melody.Proofs.Timeline.Pairing
import Melody.Proofs.Timeline.Checks
import Melody.Proofs.Midi.Quantity
import Melody.Proofs.Midi.Messages
import Melody.Proofs.Midi.Recording
import Melody.Proofs.Midi.Container
import Melody.Proofs.Midi.RoundTrip
import Melody.Proofs.Text.Digits
import Melody.Proofs.Text.Fields
import Melody.Proofs.Notation.PitchToken
import Melody.Proofs.Notation.Words
import Melody.Proofs.Notation.RoundTrip
import Melody.Proofs.Float.Sign
import Melody.Proofs.Scale.Modulation
import Melody.Proofs.Notation.Steps
import Melody.Proofs.Score.Spelling
import Melody.Proofs.Midi.Layout
import Melody.Proofs.Notation.Groups
import Melody.Proofs.Notation.Leftovers
import Melody.Proofs.Song.Archive
import Melody.Proofs.Json.Numbers
import Melody.Proofs.Json.Strings
import Melody.Proofs.Json.Records
import Melody.Proofs.Song.Document
import Melody.Proofs.Changes
import Melody.Proofs.Scale.Composition
import Melody.Proofs.Timeline.Transposition
import Melody.Proofs.Midi.Resolution
import Melody.Proofs.Json.Refusals
import Melody.Proofs.Decimal.Shortest
import Melody.Proofs.Float.Scaling
import Melody.Proofs.Json.Floats
import Melody.Proofs.Song.Loading
import Melody.Proofs.Midi.Events
import Melody.Proofs.Midi.Kept
import Melody.Proofs.Midi.NormalForm
import Melody.Proofs.InPlace
import Melody.Proofs.Scale.KeyPairs
import Melody.Proofs.Float.Finite
import Melody.Proofs.Json.Promises
import Melody.Proofs.Json.AnyValue
import Melody.Proofs.Score.Document
import Melody.Proofs.Notation.Trailing
import Melody.Proofs.Notation.Grammar
import Melody.Proofs.Notation.Positions
import Melody.Proofs.Command.Disk
import Melody.Proofs.Command.Options
import Melody.Proofs.Command.Run
import Melody.Proofs.Notation.Seams
import Melody.Proofs.Score.Transposition
import Melody.Proofs.Scale.Degrees
import Melody.Proofs.Track.Joining
import Melody.Proofs.Track.Modulation
import Melody.Proofs.Float.Zeros
import Melody.Proofs.Timeline.Duration
import Melody.Proofs.Track.Repetition
import Melody.Proofs.Midi.PrefixCode
import Melody.Proofs.Pitch.Text
import Melody.Proofs.Notation.ChordPieces
