import Melody.Proofs.Json.Codecs

/-!
# Records read back

A record is written as an object with its fields in order. Behind the key of each member the row changes its
draft in one field, and the drafts on the way need not be known to anyone but the row: the fields in front
are read already, those behind are still blank.

## The architecture

* **`Runs`** is a run from draft to draft over members, in either style and wherever they stand;
  **`members_of_runs`** is the same run over their text, and **`exists_members_of_runs`** the one through an object.
* **`Row.Takes`** is a run of the fields of a row.
* **`Row.Rereads`** is the law of `Codec.Rereads` for rows: **`Row.Rereads.field`** puts a field in front, and
  **`Row.Rereads.codec`** makes it a law of codecs.
* **`Row.RereadsAmong`** is the same for rows in which fields may be missing.
-/

namespace Melody.Json

open Outcome

variable {α β σ : Type}

/-! ## Objects -/

section Members

variable {step : String → σ → Reader σ} {consumes : ∀ key draft, (step key draft).Consumes} {first : Bool}
  {draft : σ} {text : List Char}

/-- At the closing brace the members end. With `members_of_next` this is the loop's equation. -/
theorem members_of_none (h : nextKey first text = .ok none) :
    members step consumes first draft text = .ok (draft, text) := by
  rw [members]
  -- the other two outcomes of the next key contradict `h`
  split
  · next hnext =>
    rw [h] at hnext
    cases hnext
  · rfl
  · next start hnext =>
    rw [h] at hnext
    cases hnext

/-- A member, and what comes behind it. -/
theorem members_of_next {start behind : List Char} {key : String} (h : nextKey first text = .ok (some start))
    (hkey : readText start = .ok (key, behind)) :
    members step consumes first draft text = (do
      let (draft, rest) ← step key draft behind
      members step consumes false draft rest) := by
  rw [members]
  split
  · next hnext =>
    rw [h] at hnext
    cases hnext
  · next hnext =>
    rw [h] at hnext
    cases hnext
  · next start' hnext =>
    rw [h, Except.ok.injEq, Option.some.injEq] at hnext
    subst hnext
    -- the loop keeps a proof that the text gets shorter, which is dropped here
    split
    · next hfault =>
      rw [hkey] at hfault
      cases hfault
    · next key' behind' hread =>
      rw [hkey] at hread
      obtain ⟨rfl, rfl⟩ := Prod.mk.inj (Except.ok.inj hread)
      split
      · next hstep =>
        rw [hstep]
        rfl
      · next draft' rest hstep =>
        dsimp only
        rw [hstep]
        rfl

theorem members_of_some {start behind rest last : List Char} {key : String} {draft' draft'' : σ}
    (h : nextKey first text = .ok (some start)) (hkey : readText start = .ok (key, behind))
    (hstep : step key draft behind = .ok (draft', rest))
    (hmore : members step consumes false draft' rest = .ok (draft'', last)) :
    members step consumes first draft text = .ok (draft'', last) := by
  rw [members_of_next h hkey, hstep]
  exact hmore

end Members

variable (style : Style) (key : String) (rest : List Char)

/-- The text behind the quote of a key. -/
def keyBehind : List Char := key.toList.flatMap escaped ++ '"' :: rest

theorem stringChars_append : stringChars key ++ rest = '"' :: keyBehind key rest := by
  rw [stringChars, keyBehind, List.cons_append, List.cons_append, List.append_assoc]
  rfl

/-- Behind a comma the next key is found. -/
theorem nextKey_comma :
    nextKey false (',' :: (style.lineBreak ++ (stringChars key ++ rest))) =
      .ok (some (keyBehind key rest)) := by
  have hcomma (more : List Char) : skipSpace (',' :: more) = ',' :: more := rfl
  rw [nextKey, hcomma]
  dsimp only
  rw [if_neg (by decide), if_neg Bool.false_ne_true, if_pos rfl, stringChars_append,
    skipSpace_close (by decide)]
  dsimp only
  rw [if_pos rfl]

theorem nextKey_first :
    nextKey true (style.lineBreak ++ (stringChars key ++ rest)) = .ok (some (keyBehind key rest)) := by
  rw [nextKey, stringChars_append, skipSpace_close (by decide)]
  dsimp only
  rw [if_neg (by decide), if_pos rfl, if_pos rfl]

theorem nextKey_close (first : Bool) :
    nextKey first (style.lineBreak ++ '\x7d' :: rest) = .ok none := by
  rw [nextKey, skipSpace_close (by decide)]
  dsimp only
  rw [if_pos rfl]

theorem closeObject_close : closeObject (style.lineBreak ++ '\x7d' :: rest) = .ok rest := by
  rw [closeObject, skipSpace_close (by decide)]
  dsimp only
  rw [if_pos rfl]

/-- No member continues a number that stands before it. -/
theorem ends_membersChars (style outer : Style) (members : List (String × Value)) (rest : List Char) :
    Ends (membersChars style members ++ (outer.lineBreak ++ '\x7d' :: rest)) := by
  cases members with
  | nil =>
    rw [membersChars, List.nil_append]
    exact ends_lineBreak _ (by decide) _
  | cons member members =>
    rw [membersChars]
    exact ends_cons (by decide) _

/-- Behind the colon of a member there is at most a blank. -/
theorem exists_colon_eq_ok : ∃ blanks : List Char, (∀ c ∈ blanks, isSpace c = true) ∧
    colon (style.colon ++ rest) = .ok (blanks ++ rest) := by
  cases style with
  | compact => exact ⟨[], List.forall_mem_nil _, rfl⟩
  | indented level => exact ⟨[' '], List.forall_mem_singleton.2 rfl, rfl⟩

/-- A step takes members one after the other, each wherever it stands. -/
inductive Runs (step : String → σ → Reader σ) : σ → List (String × Value) → σ → Prop
  | nil (draft : σ) : Runs step draft [] draft
  | cons {draft draft' draft'' : σ} {key : String} {value : Value} {more : List (String × Value)}
      (h : ∀ (style : Style) (rest : List Char), Ends rest →
        step key draft (style.colon ++ (value.chars style ++ rest)) = .ok (draft', rest))
      (hmore : Runs step draft' more draft'') : Runs step draft ((key, value) :: more) draft''

section Runs

variable {step : String → σ → Reader σ} (consumes : ∀ key draft, (step key draft).Consumes)
  {draft draft' : σ} {written : List (String × Value)} {text rest : List Char}

/-- The run over the members behind the first, up to the closing bracket on a line of its own. -/
theorem members_of_runs (h : Runs step draft written draft') (style outer : Style) (rest : List Char) :
    members step consumes false draft
        (membersChars style written ++ (outer.lineBreak ++ '\x7d' :: rest)) =
      .ok (draft', outer.lineBreak ++ '\x7d' :: rest) := by
  -- along the written members: each step takes the draft one member further
  induction h with
  | nil draft =>
    rw [membersChars, List.nil_append]
    exact members_of_none (nextKey_close _ _ _)
  | @cons draft draft' draft'' key value more hstep _ ih =>
    have hends := ends_membersChars style outer more rest
    rw [membersChars]
    simp only [List.append_assoc, List.cons_append]
    exact members_of_some (nextKey_comma style key _) (readText_stringChars key _) (hstep style _ hends) ih

/-- An object from one bracket to the other. -/
theorem exists_members_of_runs (h : Runs step draft written draft') {style : Style}
    (htext : skipSpace text = (Value.object written).chars style ++ rest) :
    ∃ inside behind, skipSpace text = '\x7b' :: inside ∧
      members step consumes true draft inside = .ok (draft', behind) ∧ closeObject behind = .ok rest := by
  cases h with
  | nil draft =>
    -- the brackets of an empty object stand on one line, whatever the style
    refine ⟨'\x7d' :: rest, '\x7d' :: rest, ?_, ?_, closeObject_close .compact rest⟩
    · rw [htext, Value.chars]
      rfl
    · exact members_of_none (nextKey_close .compact rest true)
  | @cons _ draft' _ key value more hstep hmore =>
    have hends := ends_membersChars style.inner style more rest
    refine ⟨_, style.lineBreak ++ '\x7d' :: rest, ?_, members_of_some (nextKey_first style.inner key _)
      (readText_stringChars key _) (hstep style.inner _ hends)
      (members_of_runs consumes hmore style.inner style rest),
      closeObject_close style rest⟩
    rw [htext, Value.chars]
    simp only [List.cons_append, List.append_assoc, List.nil_append]

end Runs

/-! ## Rows -/

namespace Row

/-- The row takes members one after the other, each wherever it stands. -/
inductive Takes (row : Row α) : row.Draft → List (String × Value) → row.Draft → Prop
  | nil (draft : row.Draft) : Takes row draft [] draft
  | cons {draft draft' draft'' : row.Draft} {key : String} {value : Value}
      {more : List (String × Value)}
      (h : ∀ (style : Style) (rest : List Char), Ends rest →
        row.member key draft (style.colon ++ (value.chars style ++ rest)) = some (.ok (draft', rest)))
      (hmore : Takes row draft' more draft'') : Takes row draft ((key, value) :: more) draft''

def Rereads (row : Row α) (a b : α) : Prop :=
  ∃ draft, row.Takes row.blank (row.write a) draft ∧ row.finish draft = .ok b

theorem step_eq_ok {row : Row α} {draft draft' : row.Draft} {value : Value} {style : Style}
    (h : row.member key draft (style.colon ++ (value.chars style ++ rest)) = some (.ok (draft', rest))) :
    row.step key draft (style.colon ++ (value.chars style ++ rest)) = .ok (draft', rest) := by
  rw [step, h]

/-- A row that takes the members one by one reads them in one run. Induction over the members. -/
theorem Takes.runs {row : Row α} {draft draft' : row.Draft} {written : List (String × Value)}
    (h : row.Takes draft written draft') : Runs row.step draft written draft' := by
  induction h with
  | nil draft => exact .nil draft
  | cons hmember _ ih => exact .cons (fun style rest hrest => step_eq_ok _ rest (hmember style rest hrest)) ih

theorem rereads_done : done.Rereads () () := ⟨(), .nil _, rfl⟩

section Field

variable {name : String} {c : Codec α} {fallback : Option α} {isOmitted : α → Bool} {others : Row β}

/-- The members of the other fields leave a field in front as it is. -/
theorem Takes.behind {draft draft' : others.Draft} {written : List (String × Value)}
    (h : others.Takes draft written draft') (hname : name ∉ written.map Prod.fst) (a : Option α) :
    (field name c fallback isOmitted others).Takes (a, draft) written (a, draft') := by
  induction h with
  | nil draft => exact .nil _
  | @cons draft draft' draft'' key value more hmember _ ih =>
    rw [List.map_cons, List.mem_cons, not_or] at hname
    refine .cons ?_ (ih hname.2)
    intro style rest hrest
    -- no name below is this field's own, so every member goes to the fields behind it
    have hne : key ≠ name := Ne.symm hname.1
    show (if key = name then _ else Option.map _ (others.member key draft _)) = _
    rw [if_neg hne, hmember style rest hrest]
    rfl

/-- A field takes the member that it has written. -/
theorem member_field {a b : α} (h : c.Rereads a b) (draft : others.Draft) (style : Style)
    (rest : List Char) (hrest : Ends rest) :
    (field name c fallback isOmitted others).member name (none, draft)
        (style.colon ++ ((c.write a).chars style ++ rest)) = some (.ok ((some b, draft), rest)) := by
  obtain ⟨blanks, hblanks, hcolon⟩ := exists_colon_eq_ok style ((c.write a).chars style ++ rest)
  show (if name = name then some _ else _) = _
  -- the field is still unset, so its own name is taken here: the colon, then the value
  rw [if_pos rfl]
  show some (colon _ >>= _) = _
  rw [hcolon]
  show some (c.read _ >>= _) = _
  rw [h style _ rest (skipSpace_chars hblanks _ _ _) hrest]
  rfl

/-- A field in front of others. If it is not written, its fallback has to stand for it. -/
theorem Rereads.field {a a' : α} {b b' : β} (ha : isOmitted a = false → c.Rereads a a')
    (homitted : isOmitted a = true → fallback = some a') (hb : others.Rereads b b')
    (hname : name ∉ (others.write b).map Prod.fst) :
    (field name c fallback isOmitted others).Rereads (a, b) (a', b') := by
  obtain ⟨draft, htakes, hfinish⟩ := hb
  -- at the end the field is what was read or else what stands for it
  have hdone (first : Option α) (hfirst : (first <|> fallback) = some a') :
      (Row.field name c fallback isOmitted others).finish (first, draft) = .ok (a', b') := by
    dsimp only [Row.field, bind, Except.bind]
    rw [hfirst]
    dsimp only
    rw [hfinish]
    rfl
  cases hwritten : isOmitted a with
  | true =>
    -- no member changes the draft of this field, which stays blank
    refine ⟨(none, draft), ?_, hdone none (homitted hwritten)⟩
    show Takes _ _ (if isOmitted a then _ else _) _
    rw [hwritten, if_pos rfl]
    exact htakes.behind hname none
  | false =>
    refine ⟨(some a', draft), ?_, hdone (some a') rfl⟩
    show Takes _ _ (if isOmitted a then _ else _) _
    rw [hwritten, if_neg Bool.false_ne_true]
    exact .cons (member_field (ha hwritten) _) (htakes.behind hname (some a'))

theorem Rereads.required {a a' : α} {b b' : β} (hb : others.Rereads b b') (ha : c.Rereads a a')
    (hname : name ∉ (others.write b).map Prod.fst) :
    (required name c others).Rereads (a, b) (a', b') :=
  .field (fun _ => ha) nofun hb hname

end Field

/-- A record is read back from its object if its fields are. -/
theorem Rereads.codec {row : Row α} {a b : α} (h : row.Rereads a b) : row.codec.Rereads a b := by
  obtain ⟨draft, htakes, hfinish⟩ := h
  intro style text rest htext _
  obtain ⟨inside, behind, hinside, hmembers, hclose⟩ := exists_members_of_runs row.step_consumes htakes.runs htext
  rw [Row.codec]
  dsimp only
  rw [hinside]
  dsimp only
  rw [if_pos rfl, hmembers]
  -- with the members read, only the defaults and the closing brace are left
  show (row.finish draft >>= fun b => closeObject _ >>= fun rest => pure (b, rest)) = _
  rw [hfinish]
  show (closeObject _ >>= fun rest => pure (b, rest)) = _
  rw [hclose]
  rfl

theorem present_codec (row : Row α) : row.codec.Present := by
  intro text rest out htext
  rw [codec]
  dsimp only
  rw [htext]
  dsimp only
  rw [if_neg (by decide), if_neg (by decide)]
  exact nofun

/-! ## Fields that may be missing

Which members are written depends on the values then, and only which keys there may be is known of a row. -/

/-- The record is read back, and the keys of its members are among these. -/
structure RereadsAmong (row : Row α) (names : List String) (a b : α) : Prop where
  rereads : row.Rereads a b
  keys : (row.write a).map Prod.fst ⊆ names

theorem rereadsAmong_done : done.RereadsAmong [] () () := ⟨rereads_done, List.Subset.refl []⟩

namespace RereadsAmong

variable {name : String} {names : List String} {c : Codec α} {fallback : Option α} {isOmitted : α → Bool}
  {others : Row β} {b b' : β}

/-- A further field must not have a name that is in use, or its member would be taken twice. -/
theorem field {a a' : α} (hb : others.RereadsAmong names b b') (ha : isOmitted a = false → c.Rereads a a')
    (homitted : isOmitted a = true → fallback = some a') (hname : name ∉ names) :
    (field name c fallback isOmitted others).RereadsAmong (name :: names) (a, b) (a', b') where
  rereads := .field ha homitted hb.rereads fun hmem => hname (hb.keys hmem)
  keys := by
    show ((if isOmitted a then others.write b else (name, c.write a) :: others.write b).map Prod.fst) ⊆ _
    split
    · exact List.subset_cons_of_subset name hb.keys
    · exact List.cons_subset_cons name hb.keys

theorem required {a a' : α} (hb : others.RereadsAmong names b b') (ha : c.Rereads a a')
    (hname : name ∉ names) : (required name c others).RereadsAmong (name :: names) (a, b) (a', b') :=
  hb.field (fun _ => ha) nofun hname

/-- Since it is written all the same, it does not matter what would be read if it were missing. -/
theorem defaulted {a a' : α} (hb : others.RereadsAmong names b b') (missing : α) (ha : c.Rereads a a')
    (hname : name ∉ names) :
    (defaulted name c missing others).RereadsAmong (name :: names) (a, b) (a', b') :=
  hb.field (fun _ => ha) nofun hname

/-- What is missing is not written, and missing again when it is read. -/
theorem optional {o : Option α} (hb : others.RereadsAmong names b b')
    (ha : ∀ a, o = some a → c.Rereads a a) (hpresent : c.Present) (hname : name ∉ names) :
    (optional name c others).RereadsAmong (name :: names) (o, b) (o, b') := by
  cases o with
  | none => exact hb.field nofun (fun _ => rfl) hname
  | some a => exact hb.field (fun _ => (ha a rfl).nullable hpresent) nofun hname

end RereadsAmong

end Row

end Melody.Json
