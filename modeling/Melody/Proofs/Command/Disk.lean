import Melody.Command.Disk

/-!
# What a write leaves alone

A write on a disk adds or changes one file and no directory, so every path leads afterwards where it led
before. That is all that a file system has to keep: **`writesWhole_fileSystem`**.
-/

namespace Melody.Disk

variable {d : Disk} {place : Place} {path : String} {bytes : List UInt8}

/-- Where a path leads depends on the directories alone, and a file is none. -/
theorem place?_store : (d.store place bytes).place? path = d.place? path := by rfl

theorem lookup_filter_ne {files : List (Place × List UInt8)} {other : Place} (h : other ≠ place) :
    (files.filter (·.1 != place)).lookup other = files.lookup other := by
  induction files with
  | nil => rfl
  | cons file files ih =>
    obtain ⟨key, contents⟩ := file
    by_cases hkey : key = place
    · -- the file at the place itself goes, and was not looked for
      rw [List.filter_cons_of_neg (by rw [hkey, bne_self_eq_false]; exact Bool.false_ne_true), ih,
        List.lookup_cons, beq_false_of_ne (by rw [hkey]; exact h)]
    · have hkept : (key != place) = true := bne_iff_ne.2 hkey
      rw [List.filter_cons, if_pos hkept, List.lookup_cons, List.lookup_cons, ih]

/-- A path to the place finds the new bytes. -/
theorem read_store_of_eq (h : d.place? path = some place) : (d.store place bytes).read path = some bytes := by
  rw [read, place?_store, h]
  exact List.lookup_cons_self

/-- Any other path finds what it found before. -/
theorem read_store_of_ne (h : d.place? path ≠ some place) : (d.store place bytes).read path = d.read path := by
  rw [read, read, place?_store]
  cases hother : d.place? path with
  | none => rfl
  | some other =>
    have hne : other ≠ place := fun heq => h (by rw [hother, heq])
    show List.lookup other ((place, bytes) :: _) = _
    rw [List.lookup_cons, beq_false_of_ne hne]
    exact lookup_filter_ne hne

/-- A write works where the path leads to a place. -/
theorem write_of_place? (h : (d.place? path).isSome = true) : (d.write path bytes).1 = true := by
  rw [write]
  cases hplace : d.place? path with
  | some place => rfl
  | none => rw [hplace] at h; cases h

/-- What it does then is to store the file there. -/
theorem write_eq_of_worked (h : (d.write path bytes).1 = true) :
    ∃ place, d.place? path = some place ∧ (d.write path bytes).2 = d.store place bytes := by
  rw [write] at h ⊢
  cases hplace : d.place? path with
  | some place => exact ⟨place, rfl, rfl⟩
  | none => rw [hplace] at h; cases h

theorem write_eq_of_failed (h : (d.write path bytes).1 = false) : (d.write path bytes).2 = d := by
  rw [write] at h ⊢
  cases hplace : d.place? path with
  | some place => rw [hplace] at h; cases h
  | none => rfl

/-- **A disk does what is asked of a file system.** -/
theorem writesWhole_fileSystem : fileSystem.WritesWhole where
  names h := by
    obtain ⟨place, hplace, -⟩ := write_eq_of_worked h
    exact ⟨by rw [hplace]; rfl, rfl⟩
  stores {d path other bytes} h hsame := by
    obtain ⟨place, hplace, hwrite⟩ := write_eq_of_worked h
    show (write d path bytes).2.read other = some bytes
    rw [hwrite]
    exact read_store_of_eq (hsame.2.trans hplace)
  -- `other` lies at another place: a path that lies nowhere reads `none` before and after
  keeps {d path other bytes} h hother := by
    obtain ⟨place, hplace, hwrite⟩ := write_eq_of_worked h
    show (write d path bytes).2.read other = read d other
    rw [hwrite]
    apply read_store_of_ne
    intro hsame
    exact hother ⟨by rw [hplace]; rfl, hsame.trans hplace.symm⟩
  fails h := congrArg read (write_eq_of_failed h)

end Melody.Disk
