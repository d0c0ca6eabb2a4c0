import Melody.Command.Task
import Melody.Proofs.Command.Disk
import Melody.Proofs.Command.Options
import Melody.Proofs.Midi.RoundTrip
import Melody.Proofs.Scale.KeyPairs

/-!
# What a run leaves behind

A run that succeeds in making a song changes one file, which has then the bytes of that song. Every other run
leaves all files as they were: nothing is written before the song is complete, and what is written is not
touched again. This holds on every file system whose writes store all of their bytes or fail without effect.

## The architecture

* **`Score.compile_inTempo`**: a tempo asked for on the command line is as good as one in the score.
* **`Makes`** says which song options make of the files there are, and which path it goes to; **`Wants`**, the
  bytes.
* **`Ends`** is what the task of options can come to: one stored song, or a failure for which there is a
  reason. One lemma for each task says that it does.
* **`run_stores_song_or_nothing`** puts this together for all command lines.
-/

namespace Melody

open Outcome

/-! ## The tempo of a song -/

/-- The song in a tempo, its own if there is no other. -/
def Song.inTempo (song : Song) (tempo : Option UInt32) : Song :=
  { song with tempo := tempo.getD song.tempo }

/-- The score with a tempo, its own if there is no other. -/
def Score.inTempo (score : Score) (tempo : Option UInt32) : Score :=
  { score with tempo := tempo.getD score.tempo }

theorem Song.mapTracks_inTempo (f : Track → Result Track) (song : Song) (tempo : Option UInt32) :
    (song.inTempo tempo).mapTracks f = (·.inTempo tempo) <$> song.mapTracks f := by
  rw [mapTracks, mapTracks, map_bind]
  rfl

/-- The tempo of a score is only handed on to its song. -/
theorem Score.compile_inTempo (score : Score) (strict : Bool) (tempo : Option UInt32) :
    (score.inTempo tempo).compile strict = (·.inTempo tempo) <$> score.compile strict := by
  have hmoved (song : Song) : (song.inTempo tempo).transposed score.transposition =
      (·.inTempo tempo) <$> song.transposed score.transposition :=
    Song.mapTracks_inTempo _ song tempo
  rw [compile, compile, map_bind]
  refine bind_congr fun tracks => ?_
  dsimp only [Score.inTempo]
  -- with or without a change of key, the song is made in the tempo of the score and then changed
  cases score.modulation with
  | none => exact hmoved (score.unmoved tracks)
  | some keys =>
    dsimp only
    rw [map_bind]
    refine bind_congr fun source => ?_
    rw [map_bind]
    refine bind_congr fun dest => ?_
    have hmodulated : ((score.unmoved tracks).inTempo tempo).modulated source dest =
        (·.inTempo tempo) <$> (score.unmoved tracks).modulated source dest :=
      Song.mapTracks_inTempo _ _ tempo
    show ((score.unmoved tracks).inTempo tempo).modulated source dest >>= _ = _ <$> (_ >>= _)
    rw [hmodulated, map_bind, bind_map_left]
    exact bind_congr hmoved

namespace Command

variable {fs : FileSystem} {state after : fs.State} {program path otherPath : String} {args : List String}
variable {o : Options} {song : Song} {bytes : List UInt8} {outcome : Outcome}

theorem code_failure_ne_zero {context : String} {cause : Option String} :
    (failure context cause).code ≠ 0 := by
  show (1 : UInt32) ≠ 0
  decide

/-! ## What options ask for -/

/-- The song that options make of the files there are, in the tempo that is asked for, and the path that it
goes to. A score is read and compiled, and its song goes next to it; a line is the only track of a song. -/
inductive Makes (fs : FileSystem) (state : fs.State) (o : Options) : String → Song → Prop
  | score {path : String} {score : Score} {song : Song} (hsource : o.source = some (.score path))
      (hscore : scoreOfFile (fs.read state path) = .ok score)
      (hsong : (score.inTempo o.tempo).compile o.strict = .ok song) :
      Makes fs state o (o.output.getD (withExtension "mid" path)) song
  | line {text : String} {track : Track} (hsource : o.source = some (.line text))
      (hcheck : o.strict = true → Notation.check text = .ok ())
      (htrack : Track.ofNotation text Track.defaultOctave Track.defaultVelocity = .ok track) :
      Makes fs state o (o.output.getD "out.mid") (.ofTracks [track] (o.tempo.getD Song.defaultTempo))

/-- What a score file makes, spelled out for a source that is known. -/
theorem makes_score_iff (hsource : o.source = some (.score path)) :
    Makes fs state o otherPath song ↔ ∃ score, scoreOfFile (fs.read state path) = .ok score ∧
      (score.inTempo o.tempo).compile o.strict = .ok song ∧
      otherPath = o.output.getD (withExtension "mid" path) := by
  constructor
  · -- the source is known, so only one of the two ways to a song is left
    intro h
    cases h with
    | @score other score song hother hscore hsong =>
      obtain rfl : path = other := Source.score.inj (Option.some.inj (hsource.symm.trans hother))
      exact ⟨score, hscore, hsong, rfl⟩
    | line hother => cases hsource.symm.trans hother
  · rintro ⟨score, hscore, hsong, rfl⟩
    exact .score hsource hscore hsong

/-- What a line makes, spelled out for a source that is known. -/
theorem makes_line_iff {text : String} (hsource : o.source = some (.line text)) :
    Makes fs state o path song ↔ (o.strict = true → Notation.check text = .ok ()) ∧
      ∃ track, Track.ofNotation text Track.defaultOctave Track.defaultVelocity = .ok track ∧
        song = .ofTracks [track] (o.tempo.getD Song.defaultTempo) ∧ path = o.output.getD "out.mid" := by
  constructor
  · intro h
    cases h with
    | score hother => cases hsource.symm.trans hother
    | @line other track hother hcheck htrack =>
      obtain rfl : text = other := Source.line.inj (Option.some.inj (hsource.symm.trans hother))
      exact ⟨hcheck, track, htrack, rfl, rfl⟩
  · rintro ⟨hcheck, track, htrack, rfl, rfl⟩
    exact .line hsource hcheck htrack

/-- Options make one song at most. -/
theorem Makes.unique {other : Song} (h : Makes fs state o path song) (hother : Makes fs state o otherPath other) :
    otherPath = path ∧ other = song := by
  cases h with
  | score hsource hscore hsong =>
    -- reading and compiling are functions of the file, and so is the path
    obtain ⟨score, hread, hcompiled, rfl⟩ := (makes_score_iff hsource).1 hother
    obtain rfl := Except.ok.inj (hread.symm.trans hscore)
    exact ⟨rfl, Except.ok.inj (hcompiled.symm.trans hsong)⟩
  | line hsource hcheck htrack =>
    obtain ⟨-, track, hread, rfl, rfl⟩ := (makes_line_iff hsource).1 hother
    obtain rfl := Except.ok.inj (hread.symm.trans htrack)
    exact ⟨rfl, rfl⟩

/-- Bytes that options ask for, and the path that they are for. -/
structure Wants (fs : FileSystem) (state : fs.State) (o : Options) (path : String) (bytes : List UInt8) :
    Prop where
  tempo : o.tempo ≠ some 0
  song : ∃ song, Makes fs state o path song ∧ song.midi = .ok bytes

/-- What options can come to: the bytes that they ask for are stored, or there is a failure because no bytes
can be stored, and no file shows a trace of it. -/
inductive Ends (fs : FileSystem) (state : fs.State) (o : Options) : Outcome × fs.State → Prop
  | stored {path : String} {bytes : List UInt8} {outcome : Outcome} {after : fs.State} (hcode : outcome.code = 0)
      (hwants : Wants fs state o path bytes) (hworked : (fs.write state path bytes).1 = true)
      (hstores : fs.Stores state path bytes after) : Ends fs state o (outcome, after)
  | failed {outcome : Outcome} {after : fs.State} (hcode : outcome.code ≠ 0)
      (hnone : ∀ path bytes, Wants fs state o path bytes → (fs.write state path bytes).1 = false)
      (hkept : fs.contents after = fs.contents state) : Ends fs state o (outcome, after)

/-- Options that make no song fail before anything is written. -/
theorem Ends.of_not_makes (hcode : outcome.code ≠ 0) (h : ∀ path song, ¬Makes fs state o path song) :
    Ends fs state o (outcome, state) := by
  refine .failed hcode (fun path bytes hwants => ?_) rfl
  obtain ⟨song, hmakes, -⟩ := hwants.song
  exact absurd hmakes (h path song)

/-! ## Writing a song -/

/-- A song is written whole where its file can be written, or else not at all. -/
theorem ends_writeSong (hfs : fs.WritesWhole) (hmakes : Makes fs state o path (song.inTempo o.tempo)) :
    Ends fs state o ((writeSong o path song).runOn fs state) := by
  -- the options ask for the bytes of this song, so it is enough that these cannot be written
  have hnone (h : o.tempo ≠ some 0 → ∀ bytes, (song.inTempo o.tempo).midi = .ok bytes →
      (fs.write state path bytes).1 = false) :
      ∀ otherPath bytes, Wants fs state o otherPath bytes → (fs.write state otherPath bytes).1 = false := by
    rintro otherPath bytes ⟨htempo, other, hother, hmidi⟩
    obtain ⟨rfl, rfl⟩ := hmakes.unique hother
    exact h htempo bytes hmidi
  rw [writeSong]
  split
  · next htempo => exact .failed code_failure_ne_zero (hnone fun h => absurd htempo h) rfl
  · next htempo =>
    dsimp only
    rw [← Song.inTempo]
    cases hmidi : (song.inTempo o.tempo).midi with
    | error e =>
      refine .failed code_failure_ne_zero (hnone fun _ bytes h => ?_) rfl
      cases hmidi.symm.trans h
    | ok bytes =>
      dsimp only [Task.runOn]
      cases hworked : (fs.write state path bytes).1 with
      | true => exact .stored rfl ⟨htempo, _, hmakes, hmidi⟩ hworked (hfs.stores_write hworked)
      | false =>
        show Ends fs state o (ofError _ _, _)
        refine .failed code_failure_ne_zero (hnone fun _ other hother => ?_) (hfs.fails hworked)
        obtain rfl : bytes = other := Except.ok.inj (hmidi.symm.trans hother)
        exact hworked

/-! ## Tasks -/

/-- A score that cannot be read or compiled makes no song; any other goes the way of every song. -/
theorem ends_compileScore (hfs : fs.WritesWhole) (hsource : o.source = some (.score path)) :
    Ends fs state o ((compileScore o path).runOn fs state) := by
  rw [compileScore, Task.runOn]
  cases hscore : scoreOfFile (fs.read state path) with
  | error e =>
    -- what cannot be read makes no song
    refine .of_not_makes code_failure_ne_zero fun _ _ hmakes => ?_
    obtain ⟨score, hread, -⟩ := (makes_score_iff hsource).1 hmakes
    cases hscore.symm.trans hread
  | ok score =>
    have htempo := score.compile_inTempo o.strict o.tempo
    dsimp only
    cases hsong : score.compile o.strict with
    | error e =>
      -- and neither does what is not compiled in the tempo of the score
      refine .of_not_makes code_failure_ne_zero fun _ _ hmakes => ?_
      obtain ⟨other, hread, hcompiled, -⟩ := (makes_score_iff hsource).1 hmakes
      obtain rfl := Except.ok.inj (hscore.symm.trans hread)
      rw [htempo, hsong] at hcompiled
      cases hcompiled
    | ok song =>
      rw [hsong] at htempo
      exact ends_writeSong hfs (.score hsource hscore htempo)

/-- A line that breaks the rules or cannot be read makes no song; any other goes the way of every song. -/
theorem ends_compileLine {text : String} (hfs : fs.WritesWhole) (hsource : o.source = some (.line text)) :
    Ends fs state o ((compileLine o text).runOn fs state) := by
  rw [compileLine]
  cases hcheck : (if o.strict then Notation.check text else .ok ()) with
  | error e =>
    refine .of_not_makes code_failure_ne_zero fun _ _ hmakes => ?_
    -- the check was made, so it is the one that failed
    split at hcheck
    · next hstrict => cases (((makes_line_iff hsource).1 hmakes).1 hstrict).symm.trans hcheck
    · cases hcheck
  | ok _ =>
    dsimp only
    cases htrack : Track.ofNotation text Track.defaultOctave Track.defaultVelocity with
    | error e =>
      refine .of_not_makes code_failure_ne_zero fun _ _ hmakes => ?_
      obtain ⟨-, track, hread, -⟩ := (makes_line_iff hsource).1 hmakes
      cases htrack.symm.trans hread
    | ok track =>
      refine ends_writeSong hfs (.line hsource (fun hstrict => ?_) htrack)
      rw [if_pos hstrict] at hcheck
      exact hcheck

/-- Listing a file writes nothing. -/
theorem runOn_listMidi : ((listMidi path).runOn fs state).2 = state := by
  rw [listMidi, Task.runOn]
  cases fs.read state path with
  | none => rfl
  | some bytes =>
    dsimp only
    cases Midi.inspect bytes with
    | error fault => rfl
    | ok inspection => rfl

/-! ## Command lines -/

theorem run_of_refused {refusal : Refusal} (h : Options.initial.parse args = .error refusal) :
    run fs program args state = (refused program refusal, state) := by
  rw [run, task, h]
  rfl

/-- Of all reasons to look at no file, only a call for help is no failure. -/
theorem code_refused_eq_zero_iff {refusal : Refusal} :
    (refused program refusal).code = 0 ↔ refusal = .help := by
  cases refusal with
  | help => exact iff_of_true rfl rfl
  | unknown option => exact iff_of_false (by show ¬(1 : UInt32) = 0; decide) nofun
  | noArgument option => exact iff_of_false code_failure_ne_zero nofun
  | badTempo text fault => exact iff_of_false code_failure_ne_zero nofun

theorem run_of_source_eq_midi (h : Options.initial.parse args = .ok o)
    (hsource : o.source = some (.midi path)) : run fs program args state = (listMidi path).runOn fs state := by
  rw [run, task, h]
  dsimp only
  rw [hsource]

/-- A run that has options and lists nothing comes to what the options can come to. -/
theorem ends_run (hfs : fs.WritesWhole) (h : Options.initial.parse args = .ok o)
    (hsource : ∀ path, o.source ≠ some (.midi path)) : Ends fs state o (run fs program args state) := by
  rw [run, task, h]
  dsimp only
  cases hs : o.source with
  | none =>
    -- nothing is made of options without a source
    refine .of_not_makes (by show ¬(1 : UInt32) = 0; decide) fun _ _ hmakes => ?_
    cases hmakes with
    | score hother => cases hs.symm.trans hother
    | line hother => cases hs.symm.trans hother
  | some source =>
    cases source with
    | score path => exact ends_compileScore hfs hs
    | line text => exact ends_compileLine hfs hs
    | midi path => exact absurd hs (hsource path)

/-- A failure leaves no trace, wherever it comes from. -/
theorem contents_run_of_code_ne_zero (hfs : fs.WritesWhole) (h : (run fs program args state).1.code ≠ 0) :
    fs.contents (run fs program args state).2 = fs.contents state := by
  cases hparse : Options.initial.parse args with
  | error refusal => rw [run_of_refused hparse]
  | ok o =>
    -- listing writes nothing at all, and a song is stored only by a run that succeeds
    by_cases hlists : ∃ path, o.source = some (.midi path)
    · obtain ⟨path, hsource⟩ := hlists
      rw [run_of_source_eq_midi hparse hsource, runOn_listMidi]
    · have hends : Ends fs state o (run fs program args state) := ends_run hfs hparse (not_exists.1 hlists)
      cases hrun : run fs program args state with
      | mk outcome after =>
        rw [hrun] at hends h
        cases hends with
        | stored hcode => exact absurd hcode h
        | failed _ _ hkept => exact hkept

/-- **A run writes one whole file or none**, wherever files are written whole or not at all. A run that fails
leaves all files as they were, and so does one that asks for help or lists a file. Arguments that ask for no
help and spell no settings fail. Of all others those succeed whose settings ask for bytes with a path that
these can be written to, and then that file has those bytes and every other the bytes that it had. -/
theorem run_stores_song_or_nothing {fs : FileSystem} (hfs : fs.WritesWhole) (program : String)
    (args : List String) (state : fs.State) :
    ((run fs program args state).1.code ≠ 0 →
      fs.contents (run fs program args state).2 = fs.contents state) ∧
    (Options.AsksForHelp args →
      (run fs program args state).1.code = 0 ∧ (run fs program args state).2 = state) ∧
    (¬Options.AsksForHelp args → (∀ settings, ¬Options.Spelled settings args) →
      (run fs program args state).1.code ≠ 0) ∧
    ∀ settings o, Options.Spelled settings args → o = Options.ofSettings settings →
      (∀ path, o.source = some (.midi path) → (run fs program args state).2 = state) ∧
      ((∀ path, o.source ≠ some (.midi path)) →
        ((run fs program args state).1.code = 0 ↔
          ∃ path bytes, Wants fs state o path bytes ∧ (fs.write state path bytes).1 = true) ∧
        ((run fs program args state).1.code = 0 →
          ∃ path bytes, Wants fs state o path bytes ∧
            fs.Stores state path bytes (run fs program args state).2)) := by
  refine ⟨contents_run_of_code_ne_zero hfs, ?_, ?_, ?_⟩
  · intro hasks
    rw [run_of_refused (Options.parse_eq_help_iff.2 hasks)]
    exact ⟨rfl, rfl⟩
  · -- whatever is read as options is spelled by settings
    intro hasks hspelled
    cases hparse : Options.initial.parse args with
    | error refusal =>
      rw [run_of_refused hparse, Ne, code_refused_eq_zero_iff]
      rintro rfl
      exact hasks (Options.parse_eq_help_iff.1 hparse)
    | ok o =>
      obtain ⟨settings, hsettings, -⟩ := Options.parse_eq_ok_iff.1 hparse
      exact absurd hsettings (hspelled settings)
  · intro settings o hspelled ho
    have hparse : Options.initial.parse args = .ok o := Options.parse_eq_ok_iff.2 ⟨settings, hspelled, ho⟩
    refine ⟨fun path hsource => ?_, fun hlists => ?_⟩
    · rw [run_of_source_eq_midi hparse hsource]
      exact runOn_listMidi
    · have hends : Ends fs state o (run fs program args state) := ends_run hfs hparse hlists
      -- the two ways in which options can end are the two sides of the equivalence
      cases hrun : run fs program args state with
      | mk outcome after =>
        rw [hrun] at hends
        cases hends with
        | @stored path bytes _ _ hcode hwants hworked hstores =>
          exact ⟨iff_of_true hcode ⟨path, bytes, hwants, hworked⟩, fun _ => ⟨path, bytes, hwants, hstores⟩⟩
        | failed hcode hnone _ =>
          refine ⟨iff_of_false hcode ?_, fun h => absurd h hcode⟩
          rintro ⟨path, bytes, hwants, hworked⟩
          rw [hnone path bytes hwants] at hworked
          cases hworked

/-- A score of two notes and a file next to it, out of the working directory, and a directory without
files. -/
def studio : Disk where
  working := ["home"]
  directories := [["home"], ["in"], ["out"]]
  files := [
    (["in", "score.json"],
      "\x7b\"tracks\": [\x7b\"notation\": \"8( C E )\"\x7d], \"tempo\": 100\x7d".toUTF8.toList),
    (["in", "score.mid"], [])]

/-- The song of the two notes, not in the tempo of the score. -/
def third : Song :=
  .ofTracks [⟨[⟨[⟨.c, 0, 0⟩], .ofFloat 0.5⟩, ⟨[⟨.e, 0, 0⟩], .ofFloat 0.5⟩], 5, 64⟩] 90

/-- The song can be played and has few tracks, so there is a file of it. -/
theorem exists_midi_third : ∃ bytes, third.midi = .ok bytes := by
  have hplayable : third.timeline.isOk = true := by decide +kernel
  cases htimeline : third.timeline with
  | error e =>
    rw [htimeline] at hplayable
    cases hplayable
  | ok events =>
    have hfile := Midi.Sheet.file?_eq_ok_iff.2 ⟨by rw [Song.trackCount_sheet htimeline]; decide, rfl⟩
    exact ⟨_, Song.midi_eq_ok_iff.2 ⟨events, htimeline, hfile⟩⟩

/-- Behind `--tempo 90` the score makes that song, for its own path or for another one. -/
theorem makes_third (output : Option String) :
    Makes Disk.fileSystem studio ⟨some (.score "../in/score.json"), output, some 90, true⟩
      (output.getD "../in/score.mid") third := by
  have hscore : scoreOfFile (Disk.fileSystem.read studio "../in/score.json") =
      .ok ⟨none, 100, 120, [⟨"8( C E )", 5, 64, 1, 0, none⟩], none, 0⟩ := by
    decide +kernel
  have hsong : Score.compile
      (.inTempo ⟨none, 100, 120, [⟨"8( C E )", 5, 64, 1, 0, none⟩], none, 0⟩ (some 90)) true = .ok third := by
    decide +kernel
  exact .score rfl hscore hsong

/-- A run in the studio. -/
def runInStudio (args : List String) : Outcome × Disk := run Disk.fileSystem "melody" args studio

/-- The last source and the last tempo count, and a tempo of zero only if it is the last. The song goes next
to the score, which is not below the working directory, or where an absolute path says. Behind a call for help
an option may lack its argument. -/
theorem run_stores_song_or_nothing_third :
    ((runInStudio ["-n", "C", "../in/score.json", "-t", "0", "--tempo", "90"]).1.code = 0 ∧
      ∃ bytes, third.midi = .ok bytes ∧ Disk.fileSystem.Stores studio "../in/score.mid" bytes
        (runInStudio ["-n", "C", "../in/score.json", "-t", "0", "--tempo", "90"]).2) ∧
    ((runInStudio ["../in/score.json", "-o", "/out/a.mid", "-t", "90"]).1.code = 0 ∧
      ∃ bytes, third.midi = .ok bytes ∧ Disk.fileSystem.Stores studio "/out/a.mid" bytes
        (runInStudio ["../in/score.json", "-o", "/out/a.mid", "-t", "90"]).2) ∧
    ((runInStudio ["../in/score.json", "-t", "0"]).1.code ≠ 0 ∧
      (runInStudio ["../in/score.json", "-t", "0"]).2.read = studio.read) ∧
    (runInStudio ["../in/score.json", "-i", "/in/score.mid"]).2 = studio ∧
    ((runInStudio ["../in/score.json", "-h", "-t"]).1.code = 0 ∧
      (runInStudio ["../in/score.json", "-h", "-t"]).2 = studio) := by
  have hdisk := Disk.writesWhole_fileSystem
  have hline : Options.Setting.Spelled (.source (.line "C")) ["-n", "C"] := .line (.inr rfl)
  have hscore : Options.Setting.Spelled (.source (.score "../in/score.json")) ["../in/score.json"] :=
    .score (by decide)
  have hmidi : Options.Setting.Spelled (.source (.midi "/in/score.mid")) ["-i", "/in/score.mid"] :=
    .midi (.inr rfl)
  have houtput : Options.Setting.Spelled (.output "/out/a.mid") ["-o", "/out/a.mid"] := .output (.inr rfl)
  have hzero : Options.Setting.Spelled (.tempo 0) ["-t", "0"] := .tempo (.inr rfl) rfl
  have hshort : Options.Setting.Spelled (.tempo 90) ["-t", "90"] := .tempo (.inr rfl) rfl
  have htempo : Options.Setting.Spelled (.tempo 90) ["--tempo", "90"] := .tempo (.inl rfl) rfl
  -- the song is stored wherever the disk has a place for it
  have hthird {args : List String} {settings : List Options.Setting} {output : Option String}
      (hspelled : Options.Spelled settings args)
      (hoptions : ⟨some (.score "../in/score.json"), output, some 90, true⟩ = Options.ofSettings settings)
      (hplace : (studio.place? (output.getD "../in/score.mid")).isSome = true) :
      (runInStudio args).1.code = 0 ∧ ∃ bytes, third.midi = .ok bytes ∧
        Disk.fileSystem.Stores studio (output.getD "../in/score.mid") bytes (runInStudio args).2 := by
    obtain ⟨hsucceeds, hstored⟩ :=
      ((run_stores_song_or_nothing hdisk "melody" args studio).2.2.2 _ _ hspelled hoptions).2 nofun
    obtain ⟨bytes, hbytes⟩ := exists_midi_third
    have htempo : some (90 : UInt32) ≠ some 0 := by decide
    have hcode := hsucceeds.2
      ⟨_, bytes, ⟨htempo, third, makes_third output, hbytes⟩, Disk.write_of_place? hplace⟩
    obtain ⟨path, stored, hwants, hstores⟩ := hstored hcode
    obtain ⟨song, hsong, hfile⟩ := hwants.song
    obtain ⟨rfl, rfl⟩ := (makes_third output).unique hsong
    exact ⟨hcode, stored, hfile, hstores⟩
  refine ⟨?_, ?_, ?_, ?_, ?_⟩
  · exact hthird (.cons hline (.cons hscore (.cons hzero (.cons htempo .nil)))) rfl (by decide +kernel)
  · exact hthird (.cons hscore (.cons houtput (.cons hshort .nil))) rfl (by decide +kernel)
  · obtain ⟨hkept, -, -, hsettings⟩ :=
      run_stores_song_or_nothing hdisk "melody" ["../in/score.json", "-t", "0"] studio
    obtain ⟨hsucceeds, -⟩ := (hsettings _ _ (.cons hscore (.cons hzero .nil)) rfl).2 nofun
    have hcode : (runInStudio ["../in/score.json", "-t", "0"]).1.code ≠ 0 := by
      intro h
      obtain ⟨path, bytes, hwants, -⟩ := hsucceeds.1 h
      exact hwants.tempo rfl
    exact ⟨hcode, hkept hcode⟩
  · have hspelled := Options.Spelled.cons hscore (.cons hmidi .nil)
    exact ((run_stores_song_or_nothing hdisk "melody" _ studio).2.2.2 _ _ hspelled rfl).1 _ rfl
  · exact (run_stores_song_or_nothing hdisk "melody" _ studio).2.1
      ⟨_, _, "-h", ["-t"], rfl, .singleton hscore, .inr rfl⟩

end Command

end Melody
