import Melody.Proofs.Json.Floats
import Melody.Proofs.Json.Records

/-!
# Values that are not read back

What is written is read again or it is not, and which of the two is a property of the value that was written.
A value that is refused makes everything around it refused, with the same fault: a run through an array or an
object stops at the first part that cannot be read, and what has been read before is of no use.

## The architecture

* **`Codec.Refuses`** is the counterpart of `Codec.Rereads`, and **`Row.Stops`** that of `Row.Takes`: a run over
  members that goes well up to one of them.
* **`Codec.Answers`** and **`Row.Answers`** put both together, for a value and the condition that it is read
  under. They are handed on as the law of reading is: **`Codec.Answers.list`** asks for the conditions of all
  elements, **`Row.Answers.required`** for that of one more field.
-/

namespace Melody.Json

open Outcome

variable {α β : Type}

namespace Codec

/-- What is written for a value is no value of the type, wherever it stands. -/
def Refuses (c : Codec α) (a : α) : Prop :=
  ∀ (style : Style) (text rest : List Char), skipSpace text = (c.write a).chars style ++ rest →
    Ends rest → c.read text = .error .mismatched

/-- A value is read back, as itself or another one, under a condition, and refused otherwise. -/
structure Answers (c : Codec α) (a : α) (p : Prop) : Prop where
  reread : p → ∃ b, c.Rereads a b
  refused : ¬ p → c.Refuses a

variable {c : Codec α} {a b : α} {p q : Prop}

theorem Rereads.answers (h : c.Rereads a b) : c.Answers a True :=
  ⟨fun _ => ⟨b, h⟩, fun hfalse => absurd trivial hfalse⟩

theorem Answers.congr (h : c.Answers a p) (hpq : p ↔ q) : c.Answers a q := propext hpq ▸ h

/-- A view refuses what the codec below refuses. -/
theorem Answers.map {view : α → β} {back : β → α} {b : β} (h : c.Answers (back b) p) :
    (c.map view back).Answers b p := by
  constructor
  · intro hp
    obtain ⟨a, ha⟩ := h.reread hp
    exact ⟨view a, ha.map rfl⟩
  · intro hp style text rest htext hrest
    show (c.read text).map _ = _
    rw [h.refused hp style text rest htext hrest]
    rfl

/-- A refused value makes the whole document fail, and the fault is that of a value of the wrong kind. -/
theorem Refuses.ofText (h : c.Refuses a) (style : Style) :
    c.ofText ((c.write a).chars style) = .error .mismatched := by
  rw [Codec.ofText, h style _ [] (skipSpace_chars_self _ style) ends_nil]
  rfl

/-- The missing value stands for what is not finite, and no float is read from it. -/
theorem refuses_float {x : Float} (h : Decimal.document.render x = ['n', 'u', 'l', 'l']) :
    float.Refuses x := by
  intro style text rest htext _
  have hskip : skipSpace text = ['n', 'u', 'l', 'l'] ++ rest := by
    rw [htext, ← h]
    show (Value.number (.real x)).chars style ++ rest = _
    rw [Value.chars]
    rfl
  rw [float]
  dsimp only
  -- `null` is a value, but none that a float accepts
  rw [scalar, hskip]
  rfl

/-- A float is read back exactly if it is finite; any other is written as `null`. -/
theorem answers_float (x : Float) : float.Answers x (x.isFinite = true) := by
  constructor
  · intro hfinite
    obtain ⟨y, hy⟩ := exists_rereadsAs hfinite
    exact ⟨y, rereads_float hy⟩
  · intro hfinite
    apply refuses_float
    have hnone : Decimal.Dyadic.ofFloat? x = none := by
      rwa [← Decimal.isSome_ofFloat?, Bool.not_eq_true, Option.isSome_eq_false_iff, Option.isNone_iff_eq_none]
        at hfinite
    -- whatever it is that is not finite, it is written the same
    rw [Decimal.Layout.render, hnone]
    dsimp only
    split
    · rfl
    · split
      · rfl
      · rfl

/-! ## Arrays -/

/-- Whatever is found in front of it, an item is read as it is or refused. -/
theorem items_of_refuses {as : List α} {p : α → Prop} (h : ∀ a ∈ as, c.Answers a (p a))
    (hfails : ¬ ∀ a ∈ as, p a) (style outer : Style) (rest : List Char) {first : Bool} {text : List Char}
    (hfirst : ∀ a more, as = a :: more → nextItem first text = .ok (some ((c.write a).chars style ++
      (itemsChars style (more.map c.write) ++ (outer.lineBreak ++ ']' :: rest))))) :
    items c.read c.consumes first text = .error .mismatched := by
  induction as generalizing first text with
  | nil => exact absurd (List.forall_mem_nil _) hfails
  | cons a as ih =>
    have hends := ends_itemsChars style outer (as.map c.write) rest
    have hskip := skipSpace_chars_append (c.write a) style
      (itemsChars style (as.map c.write) ++ (outer.lineBreak ++ ']' :: rest))
    rw [items_of_next (hfirst a as rfl)]
    rw [List.forall_mem_cons] at h hfails
    -- an element that is read leaves the fault to those behind it
    by_cases ha : p a
    · obtain ⟨b, hb⟩ := h.1.reread ha
      rw [hb style _ _ hskip hends]
      show (items c.read c.consumes false _ >>= fun behind => pure (b :: behind.1, behind.2)) = _
      rw [ih h.2 (fun hall => hfails ⟨ha, hall⟩)]
      · rfl
      · intro a' more has
        rw [has, List.map_cons, itemsChars, List.append_assoc, List.cons_append, List.cons_append,
          List.append_assoc]
        exact nextItem_comma style style _ _
    · rw [h.1.refused ha style _ _ hskip hends]
      rfl

theorem Answers.list {as : List α} {p : α → Prop} (h : ∀ a ∈ as, c.Answers a (p a)) :
    c.list.Answers as (∀ a ∈ as, p a) := by
  constructor
  · intro hall
    -- each element is read as something, and these make the list
    obtain ⟨bs, hbs⟩ : ∃ bs, List.Forall₂ c.Rereads as bs := by
      induction as with
      | nil => exact ⟨[], .nil⟩
      | cons a as ih =>
        rw [List.forall_mem_cons] at h hall
        obtain ⟨b, hb⟩ := h.1.reread hall.1
        obtain ⟨bs, hbs⟩ := ih h.2 hall.2
        exact ⟨b :: bs, .cons hb hbs⟩
    exact ⟨bs, rereads_list hbs⟩
  · intro hfails style text rest htext hrest
    cases as with
    | nil => exact absurd (List.forall_mem_nil _) hfails
    | cons a as =>
      have hskip : skipSpace text = '[' :: (style.inner.lineBreak ++ ((c.write a).chars style.inner ++
          (itemsChars style.inner (as.map c.write) ++ (style.lineBreak ++ ']' :: rest)))) := by
        rw [htext]
        show (Value.array (c.write a :: as.map c.write)).chars style ++ rest = _
        rw [Value.chars]
        simp only [List.cons_append, List.append_assoc, List.nil_append]
      -- the first element that is refused stops the loop
      have hitems : items c.read c.consumes true (style.inner.lineBreak ++ ((c.write a).chars style.inner ++
          (itemsChars style.inner (as.map c.write) ++ (style.lineBreak ++ ']' :: rest)))) =
            .error .mismatched := by
        apply items_of_refuses h hfails style.inner style rest
        intro a' more has
        obtain ⟨rfl, rfl⟩ := List.cons.inj has
        exact nextItem_first style.inner style.inner _ _
      rw [Codec.list]
      dsimp only
      rw [scalar_of_skipSpace rfl hskip]
      dsimp only [List.tail_cons]
      rw [hitems]
      rfl

end Codec

/-! ## Records -/

namespace Row

/-- The row takes members up to one that it refuses. -/
inductive Stops (row : Row α) : row.Draft → List (String × Value) → Prop
  | here {draft : row.Draft} {key : String} {value : Value} {more : List (String × Value)}
      (h : ∀ (style : Style) (rest : List Char), Ends rest →
        row.member key draft (style.colon ++ (value.chars style ++ rest)) = some (.error .mismatched)) :
      Stops row draft ((key, value) :: more)
  | cons {draft draft' : row.Draft} {key : String} {value : Value} {more : List (String × Value)}
      (h : ∀ (style : Style) (rest : List Char), Ends rest →
        row.member key draft (style.colon ++ (value.chars style ++ rest)) = some (.ok (draft', rest)))
      (hmore : Stops row draft' more) : Stops row draft ((key, value) :: more)

structure Answers (row : Row α) (a : α) (p : Prop) : Prop where
  reread : p → ∃ b, row.Rereads a b
  stopped : ¬ p → row.Stops row.blank (row.write a)

theorem answers_done : done.Answers () True :=
  ⟨fun _ => ⟨(), rereads_done⟩, fun hfalse => absurd trivial hfalse⟩

section Field

variable {name : String} {c : Codec α} {fallback : Option α} {isOmitted : α → Bool} {others : Row β}

/-- A stop among the other fields is one with a field in front of them. -/
theorem Stops.behind {draft : others.Draft} {written : List (String × Value)}
    (h : others.Stops draft written) (hname : name ∉ written.map Prod.fst) (a : Option α) :
    (field name c fallback isOmitted others).Stops (a, draft) written := by
  -- a member of another name is left to the other fields
  have hmember {draft : others.Draft} {key : String} (hne : key ≠ name) (text : List Char) :
      (field name c fallback isOmitted others).member key (a, draft) text =
        (others.member key draft text).map fun result =>
          result.map fun behind => ((a, behind.1), behind.2) := if_neg hne
  induction h with
  | here h =>
    rw [List.map_cons, List.mem_cons, not_or] at hname
    refine .here ?_
    intro style rest hrest
    rw [hmember (Ne.symm hname.1), h style rest hrest]
    rfl
  | cons h _ ih =>
    rw [List.map_cons, List.mem_cons, not_or] at hname
    refine .cons ?_ (ih hname.2)
    intro style rest hrest
    rw [hmember (Ne.symm hname.1), h style rest hrest]
    rfl

/-- A field whose value is refused fails with the fault of that value. -/
theorem member_field_of_refuses {a : α} (h : c.Refuses a) (draft : others.Draft) (style : Style)
    (rest : List Char) (hrest : Ends rest) :
    (field name c fallback isOmitted others).member name (none, draft)
        (style.colon ++ ((c.write a).chars style ++ rest)) = some (.error .mismatched) := by
  obtain ⟨blanks, hblanks, hcolon⟩ := exists_colon_eq_ok style ((c.write a).chars style ++ rest)
  show (if name = name then some _ else _) = _
  rw [if_pos rfl]
  show some (colon _ >>= _) = _
  rw [hcolon]
  show some (c.read _ >>= _) = _
  rw [h style _ rest (skipSpace_chars hblanks _ _ _) hrest]
  rfl

/-- A row is read back exactly if its first field and all others are. -/
theorem Answers.required {a : α} {b : β} {p q : Prop} (hb : others.Answers b q) (ha : c.Answers a p)
    (hname : name ∉ (others.write b).map Prod.fst) :
    (required name c others).Answers (a, b) (p ∧ q) := by
  constructor
  · rintro ⟨hp, hq⟩
    obtain ⟨a', ha'⟩ := ha.reread hp
    obtain ⟨b', hb'⟩ := hb.reread hq
    exact ⟨(a', b'), hb'.required ha' hname⟩
  · intro hfails
    by_cases hp : p
    · -- the field in front is read, and the stop is behind it
      obtain ⟨a', ha'⟩ := ha.reread hp
      have hstops := hb.stopped fun hq => hfails ⟨hp, hq⟩
      exact .cons (member_field ha' _) (hstops.behind hname (some a'))
    · exact .here (member_field_of_refuses (ha.refused hp) _)

end Field

theorem step_eq_error {row : Row α} {draft : row.Draft} {key : String} {text : List Char}
    {fault : DocumentFault} (h : row.member key draft text = some (.error fault)) :
    row.step key draft text = .error fault := by
  rw [step, h]

/-- The run over the members up to the closing bracket does not get there. -/
theorem members_of_stops {row : Row α} {draft : row.Draft} {written : List (String × Value)}
    (h : row.Stops draft written) (style outer : Style) (rest : List Char) {first : Bool}
    {text : List Char} (hfirst : ∀ key value more, written = (key, value) :: more →
      nextKey first text = .ok (some (keyBehind key (style.colon ++ (value.chars style ++
        (membersChars style more ++ (outer.lineBreak ++ '\x7d' :: rest))))))) :
    members row.step row.step_consumes first draft text = .error .mismatched := by
  induction h generalizing first text with
  -- this member is refused
  | @here draft key value more hmember =>
    have hends := ends_membersChars style outer more rest
    rw [members_of_next (hfirst key value more rfl) (readText_stringChars key _),
      step_eq_error (hmember style _ hends)]
    rfl
  -- this one is taken, and the fault is further back
  | @cons draft draft' key value more hmember _ ih =>
    have hends := ends_membersChars style outer more rest
    rw [members_of_next (hfirst key value more rfl) (readText_stringChars key _),
      step_eq_ok key _ (hmember style _ hends)]
    apply ih
    intro key' value' more' hmore
    rw [hmore, membersChars]
    simp only [List.append_assoc, List.cons_append]
    exact nextKey_comma style key' _

theorem Answers.codec {row : Row α} {a : α} {p : Prop} (h : row.Answers a p) : row.codec.Answers a p := by
  constructor
  · intro hp
    obtain ⟨b, hb⟩ := h.reread hp
    exact ⟨b, hb.codec⟩
  · intro hp style text rest htext hrest
    have hstops := h.stopped hp
    have htext : skipSpace text = (Value.object (row.write a)).chars style ++ rest := htext
    cases hwritten : row.write a with
    | nil =>
      rw [hwritten] at hstops
      cases hstops
    | cons member more =>
      obtain ⟨key, value⟩ := member
      rw [hwritten] at hstops htext
      have hskip : skipSpace text = '\x7b' :: (style.inner.lineBreak ++ (stringChars key ++
          (style.inner.colon ++ (value.chars style.inner ++ (membersChars style.inner more ++
            (style.lineBreak ++ '\x7d' :: rest)))))) := by
        rw [htext, Value.chars]
        simp only [List.cons_append, List.append_assoc, List.nil_append]
      -- the fields stop somewhere among the members, whatever the style they are written in
      have hmembers : members row.step row.step_consumes true row.blank (style.inner.lineBreak ++
          (stringChars key ++ (style.inner.colon ++ (value.chars style.inner ++
            (membersChars style.inner more ++ (style.lineBreak ++ '\x7d' :: rest)))))) =
              .error .mismatched := by
        apply members_of_stops hstops style.inner style rest
        intro key' value' more' hmore
        obtain ⟨hmember, rfl⟩ := List.cons.inj hmore
        obtain ⟨rfl, rfl⟩ := Prod.mk.inj hmember
        exact nextKey_first style.inner key _
      rw [Row.codec]
      dsimp only
      rw [hskip]
      dsimp only
      rw [if_pos rfl, hmembers]
      rfl

end Row

end Melody.Json
