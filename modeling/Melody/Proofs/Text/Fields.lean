import Mathlib.Data.List.SplitBy
import Melody.Text.Fields

/-!
# Fields put together and cut again

Fields that are joined by separators are found again, and so are words that stand in a text with blanks
between them, however many and of whatever kind. Groups need no separators, only that each of them alone
begins with a character that opens one.

## The architecture

* **`fields_append_cons`**: a text is cut at a separator, and what is said of fields follows by **`cut_induction`**.
* **`fields_intercalate`**: fields joined by one separator each.
* **`isInfix_of_mem_fields`**: a field is a stretch of the text and has no separator in it.
* **`Spaced`** relates words to the texts they stand in; **`words_of_spaced`** reads them back, and every text
  is one of its own words (**`spaced_words`**).
* **`groupsFrom_eq_iff`**: what the groups of a text are, in all. **`groupsFrom_flatten`** is the case of groups
  that each begin with an opening character.
-/

namespace Melody.Text

variable {p : Char → Bool} {word text : List Char} {words : List (List Char)}

/-! ## Separators -/

/-- What is so of texts without separators, and of a text that is cut at its first separator if it is so of what
stands behind, is so of every text. -/
@[elab_as_elim]
theorem cut_induction {motive : List Char → Prop}
    (free : ∀ front, (∀ c ∈ front, p c = false) → motive front)
    (cut : ∀ front c back, (∀ c ∈ front, p c = false) → p c = true → motive back →
      motive (front ++ c :: back))
    (text : List Char) : motive text := by
  -- what is free of separators so far stands in front of the text
  suffices h : ∀ front : List Char, (∀ c ∈ front, p c = false) → motive (front ++ text) from
    h [] (List.forall_mem_nil _)
  induction text with
  | nil =>
    intro front hfront
    rw [List.append_nil]
    exact free front hfront
  | cons c rest ih =>
    intro front hfront
    by_cases hc : p c = true
    · exact cut front c rest hfront hc (ih [] (List.forall_mem_nil _))
    · rw [List.append_cons]
      apply ih
      intro d hd
      rcases List.mem_append.1 hd with hd | hd
      · exact hfront d hd
      · rw [List.mem_singleton.1 hd]
        exact eq_false_of_ne_true hc

theorem fields_nil : fields p [] = [] := rfl

/-- A text is cut at a separator. -/
theorem fields_append_cons (front back : List Char) {c : Char} (hc : p c = true) :
    fields p (front ++ c :: back) = fields p front ++ fields p back := by
  rw [fields, List.splitOnP_append_cons front back hc, List.filter_append]
  rfl

theorem fields_cons (back : List Char) {c : Char} (hc : p c = true) :
    fields p (c :: back) = fields p back := fields_append_cons [] back hc

theorem fields_append_of_separators {seps : List Char} (h : ∀ c ∈ seps, p c = true) (back : List Char) :
    fields p (seps ++ back) = fields p back := by
  induction seps with
  | nil => rfl
  | cons c seps ih =>
    rw [List.forall_mem_cons] at h
    rw [List.cons_append, fields_cons _ h.1, ih h.2]

theorem fields_of_free (hword : word ≠ []) (hfree : ∀ c ∈ word, p c = false) :
    fields p word = [word] := by
  have hnonempty : word.isEmpty = false := by
    rw [List.isEmpty_eq_false_iff]
    exact hword
  rw [fields, List.splitOnP_eq_singleton hfree, List.filter_cons_of_pos (by rw [hnonempty]; rfl)]
  rfl

/-- Fields are found again behind a separator each. -/
theorem fields_intercalate {c : Char} (hc : p c = true) (hwords : ∀ w ∈ words, w ≠ [])
    (hfree : ∀ w ∈ words, ∀ c ∈ w, p c = false) : fields p ([c].intercalate words) = words := by
  induction words with
  | nil => rfl
  | cons w rest ih =>
    rw [List.forall_mem_cons] at hwords hfree
    have hfirst := fields_of_free hwords.1 hfree.1
    -- the last word has no separator behind it
    cases rest with
    | nil =>
      rw [List.intercalate_singleton]
      exact hfirst
    | cons v rest =>
      rw [List.intercalate_cons_cons, List.append_assoc]
      show fields p (w ++ c :: [c].intercalate (v :: rest)) = _
      rw [fields_append_cons _ _ hc, hfirst, ih hwords.2 hfree.2]
      rfl

/-- Only separators leave no field. -/
theorem fields_eq_nil_iff : fields p text = [] ↔ ∀ c ∈ text, p c = true := by
  -- a stretch without separators is a field, unless it is empty
  have hfree (front : List Char) (hfront : ∀ c ∈ front, p c = false) :
      fields p front = [] ↔ ∀ c ∈ front, p c = true := by
    cases front with
    | nil => exact iff_of_true fields_nil (List.forall_mem_nil _)
    | cons c rest =>
      rw [fields_of_free (List.cons_ne_nil c rest) hfront]
      refine iff_of_false (List.cons_ne_nil _ _) fun hall => ?_
      rw [List.forall_mem_cons] at hfront hall
      exact absurd (hall.1.symm.trans hfront.1) nofun
  induction text using cut_induction (p := p) with
  | free front hfront => exact hfree front hfront
  | cut front c back hfront hc ih =>
    rw [fields_append_cons _ _ hc, List.append_eq_nil_iff, List.forall_mem_append, List.forall_mem_cons,
      and_iff_right hc]
    exact and_congr (hfree front hfront) ih

/-- A field is a stretch of the text without separators. -/
theorem isInfix_of_mem_fields (h : word ∈ fields p text) :
    word <:+: text ∧ ∀ c ∈ word, p c = false := by
  have hfree (front : List Char) (hfront : ∀ c ∈ front, p c = false) (hword : word ∈ fields p front) :
      word = front := by
    by_cases hnil : front = []
    · rw [hnil, fields_nil] at hword
      cases hword
    · rw [fields_of_free hnil hfront, List.mem_singleton] at hword
      exact hword
  induction text using cut_induction (p := p) with
  | free front hfront =>
    obtain rfl := hfree front hfront h
    exact ⟨List.infix_rfl, hfront⟩
  | cut front c back hfront hc ih =>
    rw [fields_append_cons _ _ hc, List.mem_append] at h
    -- the word is the one in front of the separator or one behind it
    rcases h with h | h
    · obtain rfl := hfree front hfront h
      exact ⟨List.infix_append' [] word (c :: back), hfront⟩
    · obtain ⟨hstretch, hword⟩ := ih h
      refine ⟨hstretch.trans ?_, hword⟩
      rw [List.append_cons]
      exact (List.suffix_append _ _).isInfix

/-- What stands in joined words is in one of them, or in what joins them. -/
theorem mem_intercalate {sep : List Char} {c : Char} (h : c ∈ sep.intercalate words) :
    c ∈ sep ∨ ∃ w ∈ words, c ∈ w := by
  induction words with
  | nil => cases h
  | cons w rest ih =>
    cases rest with
    | nil =>
      rw [List.intercalate_singleton] at h
      exact .inr ⟨w, List.mem_singleton_self w, h⟩
    | cons v rest =>
      rw [List.intercalate_cons_cons, List.append_assoc, List.mem_append, List.mem_append] at h
      rcases h with hc | hc | hc
      · exact .inr ⟨w, List.mem_cons_self, hc⟩
      · exact .inl hc
      · rcases ih hc with hsep | ⟨u, hu, hcu⟩
        · exact .inl hsep
        · exact .inr ⟨u, List.mem_cons_of_mem w hu, hcu⟩

/-! ## Blanks -/

/-- The texts in which some words stand one after the other. Blanks are anywhere but in a word, and between
two words there is one at least. -/
inductive Spaced : List (List Char) → List Char → Prop
  | nothing : Spaced [] []
  | blank {c : Char} {ws : List (List Char)} {rest : List Char} (hc : isBlank c = true)
      (h : Spaced ws rest) : Spaced ws (c :: rest)
  | last (w : List Char) : Spaced [w] w
  | word {c : Char} {ws : List (List Char)} {rest : List Char} (w : List Char)
      (hc : isBlank c = true) (h : Spaced ws rest) : Spaced (w :: ws) (w ++ c :: rest)

/-- A spaced text is cut into its words. Induction over how it is spaced. -/
theorem words_of_spaced (h : Spaced words text) (hwords : ∀ w ∈ words, w ≠ [])
    (hfree : ∀ w ∈ words, ∀ c ∈ w, isBlank c = false) : Text.words text = words := by
  -- along the text: a blank in front is dropped, a word ends at the blank behind it
  induction h with
  | nothing => exact fields_nil
  | blank hc _ ih =>
    rw [Text.words, fields_cons _ hc]
    exact ih hwords hfree
  | last word =>
    rw [List.forall_mem_singleton] at hwords hfree
    exact fields_of_free hwords hfree
  | word word hc _ ih =>
    rw [List.forall_mem_cons] at hwords hfree
    rw [Text.words, fields_append_cons _ _ hc, fields_of_free hwords.1 hfree.1, ← Text.words,
      ih hwords.2 hfree.2]
    rfl

/-- Blanks between two texts keep their words apart. -/
theorem words_append_blanks {blanks : List Char} (hne : blanks ≠ []) (h : ∀ c ∈ blanks, isBlank c = true)
    (front back : List Char) :
    Text.words (front ++ blanks ++ back) = Text.words front ++ Text.words back := by
  obtain ⟨c, rest, rfl⟩ := List.exists_cons_of_ne_nil hne
  rw [List.forall_mem_cons] at h
  rw [List.append_assoc, List.cons_append, Text.words, fields_append_cons _ _ h.1,
    fields_append_of_separators h.2]
  rfl

/-- Every text is words with blanks between them. -/
theorem exists_spaced (text : List Char) :
    ∃ ws, Spaced ws text ∧ ∀ w ∈ ws, w ≠ [] ∧ ∀ c ∈ w, isBlank c = false := by
  induction text using cut_induction (p := isBlank) with
  | free front hfront =>
    by_cases hnil : front = []
    · rw [hnil]
      exact ⟨[], .nothing, List.forall_mem_nil _⟩
    · exact ⟨[front], .last front, List.forall_mem_singleton.2 ⟨hnil, hfront⟩⟩
  | cut front c back hfront hc ih =>
    obtain ⟨ws, hspaced, hws⟩ := ih
    -- a word ends at the separator, or there are two separators together
    by_cases hnil : front = []
    · rw [hnil]
      exact ⟨ws, .blank hc hspaced, hws⟩
    · exact ⟨front :: ws, .word front hc hspaced, List.forall_mem_cons.2 ⟨⟨hnil, hfront⟩, hws⟩⟩

/-- Every text is its words, spaced in some way, and this is why it is enough to know the words. -/
theorem spaced_words (text : List Char) :
    Spaced (Text.words text) text ∧ ∀ w ∈ Text.words text, w ≠ [] ∧ ∀ c ∈ w, isBlank c = false := by
  obtain ⟨ws, hspaced, hws⟩ := exists_spaced text
  obtain rfl : Text.words text = ws := by
    apply words_of_spaced hspaced
    · intro w hw
      exact (hws w hw).1
    · intro w hw
      exact (hws w hw).2
  exact ⟨hspaced, hws⟩

/-! ## Groups -/

/-- A text that begins with an opening character and has no other. -/
def IsGroup (opens : Char → Bool) (text : List Char) : Prop :=
  ∃ c rest, text = c :: rest ∧ opens c = true ∧ ∀ d ∈ rest, opens d = false

theorem IsGroup.ne_nil {opens : Char → Bool} (h : IsGroup opens text) : text ≠ [] := by
  obtain ⟨c, rest, rfl, -, -⟩ := h
  exact List.cons_ne_nil c rest

/-- The groups of a text: put one after the other they are the text, and a group begins with every opening
character, and nowhere else but with the text. -/
structure IsGrouping (opens : Char → Bool) (text : List Char) (groups : List (List Char)) : Prop where
  flatten_eq : groups.flatten = text
  ne_nil : ∀ g ∈ groups, g ≠ []
  opens_head : ∀ g ∈ groups.tail, ∀ c ∈ g.head?, opens c = true
  not_opens_tail : ∀ g ∈ groups, ∀ c ∈ g.tail, opens c = false

section Groups

variable {opens : Char → Bool} {groups : List (List Char)}

/-- In a group no character but the first opens one. -/
theorem isChain_not_opens_iff {g : List Char} :
    (g.IsChain fun _ next => (!opens next) = true) ↔ ∀ c ∈ g.tail, opens c = false := by
  induction g with
  | nil => exact iff_of_true List.isChain_nil (List.forall_mem_nil _)
  | cons c rest ih =>
    cases rest with
    | nil => exact iff_of_true (List.isChain_singleton c) (List.forall_mem_nil _)
    | cons d rest =>
      rw [List.isChain_cons_cons, ih, List.tail_cons, List.tail_cons, List.forall_mem_cons, Bool.not_eq_true']

/-- Whatever stands at the end of a group, the next one is opened. -/
theorem isChain_opens_iff (hne : ∀ g ∈ groups, g ≠ []) :
    (groups.IsChain fun g next => ∃ (_ : g ≠ []) (h : next ≠ []), (!opens (next.head h)) = false) ↔
      ∀ g ∈ groups.tail, ∀ c ∈ g.head?, opens c = true := by
  induction groups with
  | nil => exact iff_of_true List.isChain_nil (List.forall_mem_nil _)
  | cons g rest ih =>
    cases rest with
    | nil => exact iff_of_true (List.isChain_singleton g) (List.forall_mem_nil _)
    | cons next rest =>
      rw [List.forall_mem_cons] at hne
      have hnext : next ≠ [] := hne.2 next List.mem_cons_self
      rw [List.isChain_cons_cons, ih hne.2, List.tail_cons, List.tail_cons, List.forall_mem_cons]
      -- of two neighbours the second one opens, which is said of its first character
      refine and_congr ?_ Iff.rfl
      rw [exists_prop_of_true hne.1, exists_prop_of_true hnext, Bool.not_eq_false',
        List.head?_eq_some_head hnext]
      exact ⟨fun h c hc => Option.some.inj hc ▸ h, fun h => h _ rfl⟩

/-- **The groups of a text**, and no other cut of it is one of this form. -/
theorem groupsFrom_eq_iff : groupsFrom opens text = groups ↔ IsGrouping opens text groups := by
  rw [groupsFrom, List.splitBy_eq_iff]
  constructor
  · rintro ⟨hflatten, hnil, hinner, houter⟩
    have hne : ∀ g ∈ groups, g ≠ [] := fun g hg hempty => hnil (hempty ▸ hg)
    exact ⟨hflatten.symm, hne, (isChain_opens_iff hne).1 houter,
      fun g hg => isChain_not_opens_iff.1 (hinner g hg)⟩
  · intro h
    exact ⟨h.flatten_eq.symm, fun hnil => h.ne_nil [] hnil rfl,
      fun g hg => isChain_not_opens_iff.2 (h.not_opens_tail g hg), (isChain_opens_iff h.ne_nil).2 h.opens_head⟩

/-- The groups are a grouping, in the sense of the definition. -/
theorem isGrouping_groupsFrom (opens : Char → Bool) (text : List Char) :
    IsGrouping opens text (groupsFrom opens text) := groupsFrom_eq_iff.1 rfl

/-- Groups are found again where the next one opens. -/
theorem groupsFrom_flatten (h : ∀ g ∈ groups, IsGroup opens g) :
    groupsFrom opens groups.flatten = groups := by
  refine groupsFrom_eq_iff.2 ⟨rfl, fun g hg => (h g hg).ne_nil, ?_, ?_⟩
  · intro g hg c hc
    obtain ⟨d, rest, rfl, hd, -⟩ := h g (List.mem_of_mem_tail hg)
    obtain rfl := Option.some.inj hc
    exact hd
  · intro g hg
    obtain ⟨d, rest, rfl, -, hrest⟩ := h g hg
    exact hrest

theorem flatten_groupsFrom (opens : Char → Bool) (text : List Char) :
    (groupsFrom opens text).flatten = text := (isGrouping_groupsFrom opens text).flatten_eq

/-- Behind the first character of a group there is no opening one. -/
theorem not_opens_of_mem_groupsFrom {c : Char} {rest : List Char} (h : c :: rest ∈ groupsFrom opens text) :
    ∀ d ∈ rest, opens d = false := (isGrouping_groupsFrom opens text).not_opens_tail _ h

end Groups

/-- Where every group begins with an opening character, there is a group for each. -/
theorem length_groupsFrom {opens : Char → Bool} (h : ∀ g ∈ groupsFrom opens text, IsGroup opens g) :
    (groupsFrom opens text).length = text.countP opens := by
  -- every group holds exactly the one character that opens it
  have hone : ∀ g ∈ groupsFrom opens text, g.countP opens = 1 := by
    intro g hg
    obtain ⟨c, rest, rfl, hc, hrest⟩ := h g hg
    rw [List.countP_cons_of_pos hc, List.countP_eq_zero.2]
    intro d hd
    rw [hrest d hd]
    exact Bool.false_ne_true
  have hcount : text.countP opens = ((groupsFrom opens text).map (·.countP opens)).sum := by
    rw [← List.countP_flatten, flatten_groupsFrom]
  rw [hcount, List.map_congr_left hone, List.map_const', List.sum_replicate_nat, Nat.mul_one]

end Melody.Text
