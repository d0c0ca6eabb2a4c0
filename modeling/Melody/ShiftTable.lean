/-!
# Shift tables

A finite table from pitch classes to the number of semitones by which they move, kept sorted by key. An
entry made later replaces an earlier one of the same key.
-/

namespace Melody

/-- Entries in ascending order of their keys. -/
structure ShiftTable where
  entries : List (Int × Int32)
deriving DecidableEq, Repr

namespace ShiftTable

def empty : ShiftTable := ⟨[]⟩

/-- The shift registered for a key. -/
def get? (t : ShiftTable) (key : Int) : Option Int32 := t.entries.lookup key

/-- Puts an entry in its place among sorted ones, over an entry of the same key. -/
def insertEntry (key : Int) (shift : Int32) : List (Int × Int32) → List (Int × Int32)
  | [] => [(key, shift)]
  | (k, s) :: rest =>
    if key < k then (key, shift) :: (k, s) :: rest
    else if key = k then (key, shift) :: rest
    else (k, s) :: insertEntry key shift rest

/-- Registers a shift, replacing the one its key had. -/
def insert (t : ShiftTable) (key : Int) (shift : Int32) : ShiftTable :=
  ⟨insertEntry key shift t.entries⟩

@[simp] theorem get?_empty (key : Int) : empty.get? key = none := rfl

/-- What a table answers after an entry was made: the entry for its own key, what it answered before
for any other. -/
theorem get?_insert (t : ShiftTable) (key k : Int) (shift : Int32) :
    (t.insert key shift).get? k = if k = key then some shift else t.get? k := by
  obtain ⟨entries⟩ := t
  simp only [get?, insert]
  induction entries with
  | nil => simp only [insertEntry, List.lookup_cons, List.lookup_nil]; grind
  | cons entry rest ih =>
    obtain ⟨k', s'⟩ := entry
    unfold insertEntry
    split
    · simp only [List.lookup_cons]; grind
    · split
      · simp only [List.lookup_cons]; grind
      · simp only [List.lookup_cons, ih]; grind

/-- The table of a list of entries, later ones over earlier ones. -/
def ofList (entries : List (Int × Int32)) : ShiftTable :=
  entries.foldl (fun t entry => t.insert entry.1 entry.2) empty

end ShiftTable

end Melody
