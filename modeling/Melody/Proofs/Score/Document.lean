import Melody.Proofs.Json.AnyValue
import Melody.Proofs.Json.Promises
import Melody.Proofs.Song.Document
import Melody.Score.Document

/-!
# The normal form of scores

A score may be written down in many ways: in objects or arrays, with fields out of order, missing or unknown. Once
it was read it is written in one way only, with all of its fields but those that have no value, and that text is
read as the same score.

Two things must not go wrong on the way. Keys have no tag, and an object with one form of a key must not be taken
for the other. And the missing value is written for a number that is not finite, so none may have been read.

## The architecture

* The `rereads_document` lemmas: keys by way of any value (**`ScaleSpec.fits_toValue`**) and then by the names in
  it (**`ScaleSpec.ofValue?_toValue`**), tracks and scores by their fields.
* **`Score.promises_document`**: the factors of a score that was read are finite.
* **`Score.ofJson_toJson_of_ofJson_eq_ok`**: a score that was read is read again from its own text.
-/

namespace Melody

open Json

namespace ScaleSpec

/-- The names tell which form of a key it was. -/
theorem ofValue?_toValue (spec : ScaleSpec) : ofValue? spec.toValue = some spec := by
  cases spec with
  | mode root name => rfl
  | pitches tokens => rfl

/-- A scale is a flat object, one level deep. -/
theorem fits_toValue (spec : ScaleSpec) (room : Nat) : spec.toValue.Fits (room + 1) := by
  cases spec with
  | mode root name =>
    refine .object fun m hm => ?_
    rcases List.mem_pair.1 hm with rfl | rfl
    · exact .string room root
    · exact .string room name
  | pitches tokens =>
    refine .object fun m hm => ?_
    rw [List.mem_singleton.1 hm]
    exact .string room tokens

/-- A scale is read as any value first and then taken for one of its two forms, which the depth of the score
leaves room for. -/
theorem rereads_document {opened : Nat} (h : opened < nestingLimit) (spec : ScaleSpec) :
    (document opened).Rereads spec spec := by
  obtain ⟨room, hroom⟩ : ∃ room, nestingLimit - opened = room + 1 :=
    Nat.exists_eq_succ_of_ne_zero (Nat.sub_ne_zero_of_lt h)
  intro style text rest htext hrest
  have hread : readValue (room + 1) text = .ok (spec.toValue, rest) :=
    rereads_of_fits (spec.fits_toValue room) style text rest htext hrest
  rw [document]
  dsimp only
  rw [hroom, hread]
  dsimp only [bind, Except.bind]
  rw [ofValue?_toValue]
  rfl

end ScaleSpec

theorem Modulation.rereads_document (m : Modulation) : document.Rereads m m := by
  have hlimit : 2 < nestingLimit := by decide
  have hdest := Row.rereadsAmong_done.required (m.dest.rereads_document hlimit)
    (show "to" ∉ [] by decide)
  have hall := hdest.required (m.source.rereads_document hlimit) (show "from" ∉ ["to"] by decide)
  apply Codec.Rereads.map
  · exact hall.rereads.codec
  · rfl

/-- A track is read back with its defaults, if the factor it is resized by is. -/
theorem TrackSpec.rereads_document {t : TrackSpec} (h : ∀ x ∈ t.resizing, Codec.RereadsAs x x) :
    document.Rereads t t := by
  have hresizing := Row.rereadsAmong_done.optional (fun x hx => Codec.rereads_float (h x hx))
    Codec.present_float (show "resize" ∉ [] by decide)
  have htransposition := hresizing.defaulted 0 (Codec.rereads_int32 t.transposition)
    (show "transpose" ∉ ["resize"] by decide)
  have hrepetitions := htransposition.defaulted 1 (Codec.rereads_int32 t.repetitions)
    (show "repeat" ∉ ["transpose", "resize"] by decide)
  have hvelocity := hrepetitions.defaulted Track.defaultVelocity (Codec.rereads_int32 t.velocity)
    (show "velocity" ∉ ["repeat", "transpose", "resize"] by decide)
  have hoctave := hvelocity.defaulted Track.defaultOctave (Codec.rereads_int32 t.octave)
    (show "octave" ∉ ["velocity", "repeat", "transpose", "resize"] by decide)
  have hall := hoctave.required (Codec.rereads_string t.line)
    (show "notation" ∉ ["octave", "velocity", "repeat", "transpose", "resize"] by decide)
  apply Codec.Rereads.map
  · exact hall.rereads.codec
  · rfl

/-- A factor that was read is finite. -/
theorem TrackSpec.promises_document :
    document.Promises fun t => ∀ x ∈ t.resizing, x.isFinite = true := by
  have hresizing := Row.keeps_done.optional "resize" Codec.promises_float
  have htransposition := hresizing.defaulted "transpose" 0 Codec.int32.promises_true trivial
  have hrepetitions := htransposition.defaulted "repeat" 1 Codec.int32.promises_true trivial
  have hvelocity := hrepetitions.defaulted "velocity" Track.defaultVelocity Codec.int32.promises_true trivial
  have hoctave := hvelocity.defaulted "octave" Track.defaultOctave Codec.int32.promises_true trivial
  have hall := hoctave.required "notation" Codec.string.promises_true
  exact hall.codec.map fun _ h => h.2.2.2.2.2.1

namespace Score

/-- A score is read back if all of its factors are; every other field is exact. -/
theorem rereads_document {s : Score}
    (h : ∀ t ∈ s.tracks, ∀ x ∈ t.resizing, Codec.RereadsAs x x) : document.Rereads s s := by
  have htrack : List.Forall₂ TrackSpec.document.Rereads s.tracks s.tracks :=
    List.forall₂_same.2 fun t ht => TrackSpec.rereads_document (h t ht)
  have htransposition := Row.rereadsAmong_done.defaulted 0 (Codec.rereads_int32 s.transposition)
    (show "transpose" ∉ [] by decide)
  -- a modulation that is there is never written as null, so it is not lost
  have hmodulation := htransposition.optional (o := s.modulation) (fun m _ => m.rereads_document)
    (Row.present_codec _).map (show "modulate" ∉ ["transpose"] by decide)
  have htracks := hmodulation.required (Codec.rereads_list htrack)
    (show "tracks" ∉ ["modulate", "transpose"] by decide)
  have hresolution := htracks.defaulted Song.defaultTicksPerQuarter (Codec.rereads_uint16 s.ticksPerQuarter)
    (show "ticks_per_quarter" ∉ ["tracks", "modulate", "transpose"] by decide)
  have htempo := hresolution.defaulted Song.defaultTempo (Codec.rereads_uint32 s.tempo)
    (show "tempo" ∉ ["ticks_per_quarter", "tracks", "modulate", "transpose"] by decide)
  have hall := htempo.optional (o := s.name) (fun name _ => Codec.rereads_string name)
    Codec.present_string
    (show "name" ∉ ["tempo", "ticks_per_quarter", "tracks", "modulate", "transpose"] by decide)
  apply Codec.Rereads.map
  · exact hall.rereads.codec
  · rfl

/-- The factors that tracks are resized by are finite if the score was read. -/
theorem promises_document :
    document.Promises fun s => ∀ t ∈ s.tracks, ∀ x ∈ t.resizing, x.isFinite = true := by
  have htransposition := Row.keeps_done.defaulted "transpose" 0 Codec.int32.promises_true trivial
  have hmodulation := htransposition.optional "modulate" Modulation.document.promises_true
  have htracks := hmodulation.required "tracks" TrackSpec.promises_document.list
  have hresolution := htracks.defaulted "ticks_per_quarter" Song.defaultTicksPerQuarter
    Codec.uint16.promises_true trivial
  have htempo := hresolution.defaulted "tempo" Song.defaultTempo Codec.uint32.promises_true trivial
  have hall := htempo.optional "name" Codec.string.promises_true
  exact hall.codec.map fun _ h => h.2.2.2.1

/-- The errors of a document are wrapped, its values are not. -/
theorem ofText_eq_ok_of_ofJson {text : String} {s : Score} (h : ofJson text = .ok s) :
    document.ofText text.toList = .ok s := by
  have h : (document.ofText text.toList).mapError Error.document = .ok s := h
  cases hread : document.ofText text.toList with
  | error fault =>
    rw [hread] at h
    cases h
  | ok again =>
    rw [hread] at h
    exact congrArg Except.ok (Except.ok.inj h)

/-- **What is read as a score is read as the same score when it is written again**, whatever the first text looked
like, in either style; and from then on its text stays the same. Of numbers it is asked that the text of each
factor in the score is read as that factor. -/
theorem ofJson_toJson_of_ofJson_eq_ok {text : String} {s : Score} (h : ofJson text = .ok s)
    (hnumbers : ∀ t ∈ s.tracks, ∀ x ∈ t.resizing, x.isFinite = true → Codec.RereadsAs x x) :
    (∀ style, document.ofText ((document.write s).chars style) = .ok s) ∧
    ∃ again, ofJson s.toJson = .ok again ∧ again = s ∧ again.toJson = s.toJson := by
  have hfinite := promises_document.ofText text.toList s (ofText_eq_ok_of_ofJson h)
  have hreread : document.Rereads s s :=
    rereads_document fun t ht x hx => hnumbers t ht x hx (hfinite t ht x hx)
  exact ⟨hreread.ofText, s, readDocument_of_rereads hreread .compact, rfl, rfl⟩

/-- A score with fields out of order, missing and unknown, tracks in both forms, and keys in both: one with pitches
beside its root and mode that are no pitches. -/
def sketch : String :=
  "\x7b\"transpose\":-3,\"x\":[\x7b\"tempo\":null\x7d],\"name\":null,\"tracks\":[
    [\"c\",4,64,2,0,0.75],[\"g\"],\x7b\"resize\":null,\"notation\":\"\\u0062\"\x7d],
    \"modulate\":[\x7b\"mode\":\"minor\",\"root\":\"F#\",\"pitches\":1\x7d,\x7b\"pitches\":\"C\"\x7d]\x7d"

def sketched : Score where
  name := none
  tempo := Song.defaultTempo
  ticksPerQuarter := Song.defaultTicksPerQuarter
  tracks := [⟨"c", 4, 64, 2, 0, some 0.75⟩,
    ⟨"g", Track.defaultOctave, Track.defaultVelocity, 1, 0, none⟩,
    ⟨"b", Track.defaultOctave, Track.defaultVelocity, 1, 0, none⟩]
  modulation := some ⟨.mode "F#" "minor", .pitches "C"⟩
  transposition := -3

/-- The text, read and written again: nothing of the score is lost, though the second text looks different. -/
theorem ofJson_toJson_sketched :
    ofJson sketch = .ok sketched ∧
    (∀ t ∈ sketched.tracks, ∀ x ∈ t.resizing, x.isFinite = true → Codec.RereadsAs x x) ∧
    (∀ style, document.ofText ((document.write sketched).chars style) = .ok sketched) ∧
    ∃ again, ofJson sketched.toJson = .ok again ∧ again = sketched ∧ again.toJson = sketched.toJson := by
  have hread : ofJson sketch = .ok sketched := by decide +kernel
  have hnumbers : ∀ t ∈ sketched.tracks, ∀ x ∈ t.resizing, x.isFinite = true → Codec.RereadsAs x x := by
    decide +kernel
  exact ⟨hread, hnumbers, ofJson_toJson_of_ofJson_eq_ok hread hnumbers⟩

end Score

end Melody
