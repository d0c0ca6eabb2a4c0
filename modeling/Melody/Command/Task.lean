import Melody.Command.FileSystem
import Melody.Command.Options
import Melody.Command.Path
import Melody.Midi.Inspection
import Melody.Score.Document

/-!
# What a run does

A run reads at most one file and writes at most one. It is described as a `Task`: the file operations in
order, each with what is done about its result, up to the exit code and the text on the two outputs. A task
can be carried out in a state of any `FileSystem` (`Task.runOn`), which gives the outcome and the state
afterwards.

* **`Command.task`** is the task of a command line.
* A failure is reported with its context and, if it has one, its cause (`Outcome.failure`).
* The file of a song is complete before it is written.
-/

namespace Melody

/-- How a run ends. -/
structure Outcome where
  code : UInt32
  stdout : String
  stderr : String
deriving DecidableEq, Repr

namespace Outcome

/-- Success, with a text to print. -/
def success (text : String) : Outcome := ⟨0, text, ""⟩

/-- Failure: what was tried, and why it did not work. -/
def failure (context : String) (cause : Option String) : Outcome :=
  let why := match cause with
    | none => ""
    | some cause => "\nCaused by:\n    " ++ cause ++ "\n"
  ⟨1, "", "Error: " ++ context ++ "\n" ++ why⟩

/-- Failure for a cause of the library. -/
def ofError (context : String) (e : Error) : Outcome := failure context (some e.message)

end Outcome

/-- File operations up to an outcome. -/
inductive Task
  | done (outcome : Outcome)
  /-- Reads a file; none if that fails. -/
  | read (path : String) (next : Option (List UInt8) → Task)
  /-- Writes a file; whether that worked. -/
  | write (path : String) (bytes : List UInt8) (next : Bool → Task)

/-- Carries out a task in a state of a file system. -/
def Task.runOn (fs : FileSystem) (state : fs.State) : Task → Outcome × fs.State
  | .done outcome => (outcome, state)
  | .read path next => (next (fs.read state path)).runOn fs state
  | .write path bytes next =>
    let (worked, after) := fs.write state path bytes
    (next worked).runOn fs after

namespace Command

/-! ## Texts -/

/-- The help text of a program of the given name. -/
def help (program : String) : String :=
  "notecraft - compile melody notation into MIDI files\n" ++
  "\n" ++
  "Usage:\n" ++
  "  " ++ program ++ " <score.json> [OPTIONS]\n" ++
  "  " ++ program ++ " --notation <STRING> [OPTIONS]\n" ++
  "  " ++ program ++ " --inspect <file.mid>\n" ++
  "\n" ++
  "Options:\n" ++
  "  -o, --output PATH    Output file (default: score name with .mid)\n" ++
  "  -t, --tempo BPM      Override the tempo\n" ++
  "      --no-validate    Skip strict notation checks\n" ++
  "  -h, --help           Print this help message\n"

/-- How a run ends that gets no options. -/
def refused (program : String) : Refusal → Outcome
  | .help => ⟨0, "", help program⟩
  | .unknown option =>
    ⟨1, "", "Unknown option: " ++ option ++ "\nUse --help for usage information\n"⟩
  | .noArgument option => .failure (option ++ " requires an argument") none
  | .badTempo text fault => .failure ("invalid tempo: " ++ text) (some fault.message)

/-- A text at the right of a column. -/
def padLeft (width : Nat) (text : String) : String :=
  String.ofList (List.replicate (width - text.length) ' ' ++ text.toList)

/-- A text at the left of a column. -/
def padRight (width : Nat) (text : String) : String :=
  String.ofList (text.toList ++ List.replicate (width - text.length) ' ')

/-- The line of an event in a listing. -/
def eventLine (e : Midi.TimedEvent) : String :=
  let what := match e.event with
    | .tempo micros => "tempo    " ++ toString micros.toNat ++ " us/quarter"
    | .noteOn pitch velocity =>
      "note-on  " ++ padRight 4 (Midi.noteName pitch) ++ " vel " ++ toString velocity.toNat
    | .noteOff pitch velocity =>
      "note-off " ++ padRight 4 (Midi.noteName pitch) ++ " vel " ++ toString velocity.toNat
  "track " ++ padLeft 2 (toString e.track) ++ " tick " ++ padLeft 6 (toString e.tick.toNat) ++
    "  " ++ what ++ "\n"

/-- The listing of a file. -/
def listing (i : Midi.Inspection) : String :=
  toString i.trackCount ++ " tracks, " ++ toString i.ticksPerQuarter.toNat ++
    " ticks per quarter\n" ++ String.join (i.events.map eventLine)

/-- What is said about a song that was written. -/
def writtenText (path : String) (song : Song) : String :=
  "Wrote " ++ path ++ " (" ++ toString song.trackCount ++ " tracks, " ++
    String.ofList (Decimal.fixed 2 song.duration) ++ " quarter notes)\n"

/-! ## Tasks -/

/-- Writes a song, in the tempo asked for if there is one. -/
def writeSong (o : Options) (path : String) (song : Song) : Task :=
  if o.tempo = some 0 then .done (.failure "tempo must be positive" none)
  else
    let song := { song with tempo := o.tempo.getD song.tempo }
    let context := "Failed to write " ++ Text.quoted path
    match song.midi with
    | .error e => .done (.ofError context e)
    | .ok bytes =>
      .write path bytes fun worked =>
        .done (if worked then .success (writtenText path song)
          else .ofError context (.file .unavailable))

/-- The score of the contents of a file. -/
def scoreOfFile (contents : Option (List UInt8)) : Result Score :=
  match contents with
  | none => .error (.file .unavailable)
  | some bytes =>
    match String.fromUTF8? ⟨bytes.toArray⟩ with
    | none => .error (.file .notText)
    | some text => Score.ofJson text

/-- Compiles the score of a file and writes the song, next to the score unless told otherwise. -/
def compileScore (o : Options) (path : String) : Task :=
  .read path fun contents =>
    match scoreOfFile contents with
    | .error e => .done (.ofError ("Failed to read score " ++ Text.quoted path) e)
    | .ok score =>
      match score.compile o.strict with
      | .error e => .done (.ofError ("Failed to compile " ++ Text.quoted path) e)
      | .ok song => writeSong o (o.output.getD (withExtension "mid" path)) song

/-- Makes a song of one track from a line of notation and writes it. -/
def compileLine (o : Options) (text : String) : Task :=
  match if o.strict then Notation.check text else .ok () with
  | .error e => .done (.ofError "Invalid notation" e)
  | .ok _ =>
    match Track.ofNotation text Track.defaultOctave Track.defaultVelocity with
    | .error e => .done (.ofError "Failed to parse notation" e)
    | .ok track => writeSong o (o.output.getD "out.mid") (Song.initial.addTrack track)

/-- Lists the events of a MIDI file. -/
def listMidi (path : String) : Task :=
  let context := "Failed to read " ++ Text.quoted path
  .read path fun contents =>
    match contents with
    | none => .done (.ofError context (.file .unavailable))
    | some bytes =>
      match Midi.inspect bytes with
      | .error fault => .done (.ofError context (.midi fault))
      | .ok inspection => .done (.success (listing inspection))

/-- The task of a command line, for a program of the given name. -/
def task (program : String) (args : List String) : Task :=
  match Options.initial.parse args with
  | .error refusal => .done (refused program refusal)
  | .ok o =>
    match o.source with
    | none => .done ⟨1, "", help program⟩
    | some (.score path) => compileScore o path
    | some (.line text) => compileLine o text
    | some (.midi path) => listMidi path

/-- A run in a state of a file system: its outcome, and the state afterwards. -/
def run (fs : FileSystem) (program : String) (args : List String) (state : fs.State) : Outcome × fs.State :=
  (task program args).runOn fs state

end Command

end Melody
