import Melody.Proofs.Float.Bits
import Melody.Proofs.Json.Records
import Melody.Song.Document

/-!
# Songs in documents, there and back

A song is read back from its document with all of its fields: the name whatever characters are in it, the
integers over their whole range, and the lists at every level, empty or not.

Lengths are written in decimal and read in two roundings, so not every float comes back as it was. What a
song is read as is settled by what the text of each length is read as, and nothing else is asked of numbers.

## The architecture

* The `rereads_document` lemmas: what letters, pitches, chords and tracks are read as, each by its parts.
* **`Song.ofJson_of_rereads`**: what a song is read as, whatever its lengths are read as.
* **`Song.ofJson_toJson`**: a song whose lengths come back comes back.
-/

namespace Melody

open Json

/-- Whole documents are read like the values in them. -/
theorem readDocument_of_rereads {α : Type} {c : Codec α} {a b : α} (h : c.Rereads a b) (style : Style) :
    readDocument c (String.ofList ((c.write a).chars style)) = .ok b := by
  rw [readDocument, String.toList_ofList, h.ofText]
  rfl

namespace Letter

theorem ofString?_toChar (l : Letter) : ofString? (String.ofList [l.toChar]) = some l := by
  rw [ofString?, String.toList_ofList]
  exact ofChar?_toChar l

/-- A letter is a string of one character. -/
theorem rereads_document (l : Letter) : document.Rereads l l := by
  intro style text rest htext _
  have hskip : skipSpace text = '"' :: keyBehind (String.ofList [l.toChar]) rest := by
    rw [htext]
    show (Value.string (String.ofList [l.toChar])).chars style ++ rest = _
    rw [Value.chars, stringChars_append]
  simp only [document, hskip]
  rw [readQuoted, keyBehind, readText_stringChars]
  dsimp only [bind, Except.bind]
  rw [ofString?_toChar]
  rfl

end Letter

/-- A pitch is a record of three fields, all of them exact. -/
theorem Pitch.rereads_document (p : Pitch) : document.Rereads p p := by
  have hoctave := Row.rereads_done.required (Codec.rereads_int32 p.octave)
    (show "octave" ∉ ([] : List String) by decide)
  have haccidental := hoctave.required (Codec.rereads_int32 p.accidental)
    (show "accidental" ∉ ["octave"] by decide)
  have hbase := haccidental.required (Letter.rereads_document p.letter)
    (show "base" ∉ ["accidental", "octave"] by decide)
  apply Codec.Rereads.map
  · exact hbase.codec
  · rfl

/-- What a chord is read as: its pitches and whatever the text of its length is read as. -/
theorem Chord.rereads_document {c : Chord} {x : Float} (h : Codec.RereadsAs c.length.value x) :
    document.Rereads c ⟨c.pitches, .ofFloat x⟩ := by
  have hpitches : List.Forall₂ Pitch.document.Rereads c.pitches c.pitches :=
    List.forall₂_same.2 fun p _ => p.rereads_document
  have hlength := Row.rereads_done.required (Codec.rereads_float h)
    (show "length" ∉ ([] : List String) by decide)
  have hall := hlength.required (Codec.rereads_list hpitches) (show "pitches" ∉ ["length"] by decide)
  apply Codec.Rereads.map
  · exact hall.codec
  · rfl

/-- A track is read back with the chords that its own are read back as. -/
theorem Track.rereads_document {t : Track} {chords : List Chord}
    (h : List.Forall₂ Chord.document.Rereads t.chords chords) :
    document.Rereads t { t with chords } := by
  have hvelocity := Row.rereads_done.required (Codec.rereads_int32 t.velocity)
    (show "velocity" ∉ ([] : List String) by decide)
  have hoctave := hvelocity.required (Codec.rereads_int32 t.octave)
    (show "octave" ∉ ["velocity"] by decide)
  have hall := hoctave.required (Codec.rereads_list h)
    (show "chords" ∉ ["octave", "velocity"] by decide)
  apply Codec.Rereads.map
  · exact hall.codec
  · rfl

namespace Song

/-- A song is read back with the tracks that its own are read back as. -/
theorem rereads_document {s : Song} {tracks : List Track}
    (h : List.Forall₂ Track.document.Rereads s.tracks tracks) :
    document.Rereads s { s with tracks } := by
  have htracks := Row.rereads_done.required (Codec.rereads_list h)
    (show "tracks" ∉ ([] : List String) by decide)
  have hresolution := htracks.required (Codec.rereads_uint16 s.ticksPerQuarter)
    (show "ticks_per_quarter" ∉ ["tracks"] by decide)
  have htempo := hresolution.required (Codec.rereads_uint32 s.tempo)
    (show "tempo" ∉ ["ticks_per_quarter", "tracks"] by decide)
  have hall := htempo.required (Codec.rereads_string s.name)
    (show "name" ∉ ["tempo", "ticks_per_quarter", "tracks"] by decide)
  apply Codec.Rereads.map
  · exact hall.codec
  · rfl

theorem ofJson_of_rereads {s t : Song} (h : document.Rereads s t) : ofJson s.toJson = .ok t :=
  readDocument_of_rereads h (.indented 0)

/-- **Songs are read back from documents**, field by field. Every length has to be a number, and of numbers
it is asked that the text of each length that is in the song is read as that length. -/
theorem ofJson_toJson {s : Song}
    (hfinite : ∀ t ∈ s.tracks, ∀ c ∈ t.chords, c.length.value.isFinite = true)
    (hnumbers : ∀ t ∈ s.tracks, ∀ c ∈ t.chords, Codec.RereadsAs c.length.value c.length.value) :
    ofJson s.toJson = .ok s := by
  -- a finite length that is read back is the same word: the conversion loses only NaN payloads
  have hchord : ∀ t ∈ s.tracks, ∀ c ∈ t.chords, Chord.document.Rereads c c := by
    intro t ht c hc
    have hread := Chord.rereads_document (hnumbers t ht c hc)
    rw [Binary64.ofFloat_value (hfinite t ht c hc)] at hread
    exact hread
  have htrack : ∀ t ∈ s.tracks, Track.document.Rereads t t := by
    intro t ht
    exact Track.rereads_document (List.forall₂_same.2 (hchord t ht))
  exact ofJson_of_rereads (rereads_document (List.forall₂_same.2 htrack))

/-- A name with every kind of escape, words at the ends of their ranges, empty lists at every level, and
lengths whose text needs all digits or an exponent. -/
def patchwork : Song :=
  ⟨"\"a\\b\"\n\t\x01 é𝄞", 0xFFFFFFFF, 0,
    [⟨[], -2147483648, 2147483647⟩,
      ⟨[⟨[], .ofFloat (4 / 3)⟩, ⟨[⟨.b, -1, 7⟩, ⟨.c, 2147483647, -2147483648⟩], .ofFloat 0.5⟩,
        ⟨[⟨.g, 0, 0⟩], .ofFloat (-1e-300)⟩], 5, 64⟩]⟩

/-- Each of its lengths is finite and a text of its own number, so the song is read back. -/
theorem ofJson_toJson_patchwork :
    (∀ t ∈ patchwork.tracks, ∀ c ∈ t.chords, c.length.value.isFinite = true) ∧
    (∀ t ∈ patchwork.tracks, ∀ c ∈ t.chords, Codec.RereadsAs c.length.value c.length.value) ∧
    ofJson patchwork.toJson = .ok patchwork := by
  have hfinite : ∀ t ∈ patchwork.tracks, ∀ c ∈ t.chords, c.length.value.isFinite = true := by
    decide +kernel
  have hnumbers : ∀ t ∈ patchwork.tracks, ∀ c ∈ t.chords,
      Codec.RereadsAs c.length.value c.length.value := by
    decide +kernel
  exact ⟨hfinite, hnumbers, ofJson_toJson hfinite hnumbers⟩

end Song

end Melody
