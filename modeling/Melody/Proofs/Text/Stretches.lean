import Melody.Proofs.Text.Fields

/-!
# Where fields stand

The fields of a text are the longest stretches of it without separators, all of them and from front to back.

## The architecture

* **`Stretch`** is such a stretch with what stands on either side of it.
* **`Stretch.cases_cut`**: in a text that is cut at its first separator, a stretch is what stands in front of the
  separator, or one of what stands behind (**`Stretch.behindCut`**).
* **`exists_stretches`**: the list of all of them is the list of the fields.
-/

namespace Melody.Text

variable {p : Char → Bool} {text front back : List Char} {c : Char}

/-- A longest stretch without separators: it is not empty, and on either side of it the text ends or there is a
separator. -/
@[ext]
structure Stretch (p : Char → Bool) (text : List Char) where
  before : List Char
  word : List Char
  behind : List Char
  text_eq : text = before ++ (word ++ behind)
  ne_nil : word ≠ []
  free : ∀ c ∈ word, p c = false
  before_ends : ∀ c ∈ before.getLast?, p c = true
  behind_begins : ∀ c ∈ behind.head?, p c = true

/-- A word ends where the first separator stands. -/
theorem takeWhile_append_of_free {word rest : List Char} (hfree : ∀ c ∈ word, p c = false)
    (hrest : ∀ c ∈ rest.head?, p c = true) : (word ++ rest).takeWhile (!p ·) = word := by
  rw [List.takeWhile_append_of_pos fun c hc => by rw [hfree c hc]; rfl]
  cases rest with
  | nil => exact List.append_nil word
  | cons c rest =>
    rw [List.takeWhile_cons_of_neg (by rw [hrest c rfl]; exact Bool.false_ne_true), List.append_nil]

namespace Stretch

/-- A text without separators, if there is any. -/
def whole (hne : text ≠ []) (hfree : ∀ c ∈ text, p c = false) : Stretch p text where
  before := []
  word := text
  behind := []
  text_eq := (List.append_nil text).symm
  ne_nil := hne
  free := hfree
  before_ends := by
    intro d hd
    cases hd
  behind_begins := by
    intro d hd
    cases hd

/-- What stands in front of the first separator. -/
def inFront (hne : front ≠ []) (hfree : ∀ c ∈ front, p c = false) (hc : p c = true) :
    Stretch p (front ++ c :: back) where
  before := []
  word := front
  behind := c :: back
  text_eq := rfl
  ne_nil := hne
  free := hfree
  before_ends := by
    intro d hd
    cases hd
  behind_begins := fun _ hd => Option.some.inj hd ▸ hc

/-- A stretch behind a separator. -/
def behindCut (front : List Char) (hc : p c = true) (s : Stretch p back) : Stretch p (front ++ c :: back) where
  before := front ++ c :: s.before
  word := s.word
  behind := s.behind
  text_eq := by
    rw [List.append_assoc, List.cons_append, ← s.text_eq]
  ne_nil := s.ne_nil
  free := s.free
  before_ends := by
    intro d hd
    rw [List.getLast?_append, List.getLast?_cons, Option.some_or, Option.mem_some] at hd
    cases hlast : s.before.getLast? with
    | none =>
      rw [hlast, Option.getD_none] at hd
      rw [← hd]
      exact hc
    | some e =>
      rw [hlast, Option.getD_some] at hd
      rw [← hd]
      exact s.before_ends e hlast
  behind_begins := s.behind_begins

/-- A stretch at the beginning is all that stands in front of the first separator. -/
theorem of_before_eq_nil {s : Stretch p text} (hbefore : s.before = []) {rest : List Char}
    (htext : text = front ++ rest) (hfront : ∀ c ∈ front, p c = false) (hrest : ∀ c ∈ rest.head?, p c = true) :
    s.word = front ∧ s.behind = rest := by
  have hword : s.word ++ s.behind = front ++ rest := by
    have heq := s.text_eq
    rw [hbefore, List.nil_append] at heq
    exact heq.symm.trans htext
  -- both words run up to the first separator of the same text
  have hfirst : s.word = front := by
    rw [← takeWhile_append_of_free s.free s.behind_begins, hword, takeWhile_append_of_free hfront hrest]
  rw [hfirst, List.append_cancel_left_eq] at hword
  exact ⟨hfirst, hword⟩

/-- Where a text has no separators, nothing stands in front of a stretch. -/
theorem before_eq_nil_of_free (s : Stretch p text) (hfree : ∀ c ∈ text, p c = false) : s.before = [] := by
  rcases List.eq_nil_or_concat' s.before with hnil | ⟨init, d, hbefore⟩
  · exact hnil
  · have hd : p d = true := s.before_ends d (by rw [hbefore]; exact List.getLast?_concat)
    have hmem : d ∈ text := by
      rw [s.text_eq, hbefore]
      exact List.mem_append_left _ List.mem_concat_self
    rw [hfree d hmem] at hd
    cases hd

/-- A text without separators has one stretch, which is all of it. -/
theorem eq_whole_of_free (s : Stretch p text) (hne : text ≠ []) (hfree : ∀ c ∈ text, p c = false) :
    s = whole hne hfree := by
  have hbefore := s.before_eq_nil_of_free hfree
  obtain ⟨hword, hbehind⟩ := of_before_eq_nil hbefore (List.append_nil text).symm hfree fun _ hd => by cases hd
  exact Stretch.ext hbefore hword hbehind

/-- A stretch that does not stand at the beginning of a text stands behind its first separator. -/
theorem exists_behind_of_before_ne_nil (s : Stretch p (front ++ c :: back)) (hfront : ∀ c ∈ front, p c = false)
    (hbefore : s.before ≠ []) :
    ∃ before, s.before = front ++ c :: before ∧ back = before ++ (s.word ++ s.behind) := by
  obtain ⟨init, d, hinit⟩ := (List.eq_nil_or_concat' s.before).resolve_left hbefore
  have hd : p d = true := s.before_ends d (by rw [hinit]; exact List.getLast?_concat)
  have htext := s.text_eq
  rw [hinit, List.append_assoc, List.append_eq_append_iff] at htext
  rcases htext with ⟨more, rfl, hmore⟩ | ⟨more, rfl, hmore⟩
  · -- the separator at the end of what stands before is this one or one behind it
    cases more with
    | nil =>
      obtain ⟨rfl, hback⟩ := List.cons.inj hmore
      exact ⟨[], by rw [hinit, List.append_nil], hback⟩
    | cons e more =>
      obtain ⟨rfl, hback⟩ := List.cons.inj hmore
      refine ⟨more ++ [d], ?_, ?_⟩
      · rw [hinit, List.append_assoc, List.cons_append]
      · exact hback.trans (List.append_assoc more [d] _).symm
  · cases more with
    | nil =>
      obtain ⟨rfl, hback⟩ := List.cons.inj hmore
      exact ⟨[], by rw [hinit, List.append_nil], hback.symm⟩
    | cons e more =>
      -- it would stand in front of the first
      obtain ⟨rfl, -⟩ := List.cons.inj hmore
      rw [hfront d (List.mem_append_right _ List.mem_cons_self)] at hd
      cases hd

/-- A stretch of a text that is cut at its first separator. -/
theorem cases_cut (s : Stretch p (front ++ c :: back)) (hfront : ∀ c ∈ front, p c = false) (hc : p c = true) :
    (∃ hne, s = inFront hne hfront hc) ∨ ∃ t, s = behindCut front hc t := by
  -- the stretch starts the text, or lies behind the first separator
  by_cases hbefore : s.before = []
  · obtain ⟨hword, hbehind⟩ := of_before_eq_nil hbefore rfl hfront fun _ hd => Option.some.inj hd ▸ hc
    exact .inl ⟨hword ▸ s.ne_nil, Stretch.ext hbefore hword hbehind⟩
  · obtain ⟨before, heq, hback⟩ := s.exists_behind_of_before_ne_nil hfront hbefore
    refine .inr ⟨⟨before, s.word, s.behind, hback, s.ne_nil, s.free, ?_, s.behind_begins⟩,
      Stretch.ext heq rfl rfl⟩
    intro d hd
    apply s.before_ends
    rw [heq, List.getLast?_append, List.getLast?_cons, Option.some_or, Option.mem_def.1 hd]
    rfl

end Stretch

/-- The longest stretches of a text, all of them and from front to back. -/
structure ListsStretches (stretches : List (Stretch p text)) : Prop where
  complete : ∀ s, s ∈ stretches
  sorted : stretches.Pairwise fun s t => s.before.length < t.before.length

/-- **The fields of a text are its longest stretches** without separators, all of them and from front to
back. -/
theorem exists_stretches (p : Char → Bool) (text : List Char) :
    ∃ stretches : List (Stretch p text), ListsStretches stretches ∧
      fields p text = stretches.map Stretch.word := by
  induction text using cut_induction (p := p) with
  | free front hfront =>
    by_cases hnil : front = []
    · subst hnil
      have hnone (s : Stretch p []) : s.word = [] :=
        (List.append_eq_nil_iff.1 (List.append_eq_nil_iff.1 s.text_eq.symm).2).1
      exact ⟨[], ⟨fun s => absurd (hnone s) s.ne_nil, .nil⟩, fields_nil⟩
    · exact ⟨[.whole hnil hfront],
        ⟨fun s => List.mem_singleton.2 (s.eq_whole_of_free hnil hfront), List.pairwise_singleton _ _⟩,
        fields_of_free hnil hfront⟩
  | cut front c back hfront hc ih =>
    obtain ⟨stretches, ⟨hcomplete, hsorted⟩, hfields⟩ := ih
    have hmem (t : Stretch p back) : Stretch.behindCut front hc t ∈ stretches.map (.behindCut front hc) :=
      List.mem_map_of_mem (hcomplete t)
    -- behind the separator every stretch starts further back, so the order stays
    have hshifted : (stretches.map (.behindCut front hc)).Pairwise
        fun s t : Stretch p (front ++ c :: back) => s.before.length < t.before.length := by
      refine List.pairwise_map.2 (hsorted.imp fun {s t} hlt => ?_)
      show (front ++ c :: s.before).length < (front ++ c :: t.before).length
      rw [List.length_append, List.length_append, List.length_cons, List.length_cons]
      omega
    have hwords : fields p back = (stretches.map (Stretch.behindCut front hc)).map Stretch.word := by
      rw [hfields, List.map_map]
      rfl
    by_cases hnil : front = []
    · refine ⟨stretches.map (.behindCut front hc), ⟨fun s => ?_, hshifted⟩, ?_⟩
      · rcases s.cases_cut hfront hc with ⟨hne, -⟩ | ⟨t, rfl⟩
        · exact absurd hnil hne
        · exact hmem t
      · have hback : fields p (front ++ c :: back) = fields p back := by
          rw [hnil]
          exact fields_cons back hc
        exact hback.trans hwords
    · -- the stretch in front of the separator comes first
      refine ⟨.inFront hnil hfront hc :: stretches.map (.behindCut front hc), ⟨fun s => ?_, ?_⟩, ?_⟩
      · rcases s.cases_cut hfront hc with ⟨_, rfl⟩ | ⟨t, rfl⟩
        · exact List.mem_cons_self
        · exact List.mem_cons_of_mem _ (hmem t)
      · refine List.pairwise_cons.2 ⟨fun t ht => ?_, hshifted⟩
        obtain ⟨s, -, rfl⟩ := List.mem_map.1 ht
        exact List.length_pos_of_mem (List.mem_append_right front List.mem_cons_self)
      · rw [fields_append_cons _ _ hc, fields_of_free hnil hfront, hwords]
        rfl

end Melody.Text
