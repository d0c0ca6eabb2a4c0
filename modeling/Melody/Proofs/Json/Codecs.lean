import Melody.Json.Record
import Melody.Proofs.Json.Numbers
import Melody.Proofs.Json.Strings

/-!
# Codecs of documents

What a codec writes it reads again, in either style, wherever it stands in a document. That is one law,
handed on from the parts of a value to the whole. It names what is read apart from what was written, since a
float need not come back as it was.

## The architecture

* **`Value.chars_eq_cons`**: no value begins with a blank or a closing bracket, so it is found behind blanks.
* **`Codec.Rereads`** is the law. Scalars obey it by themselves, a float by what its own text is read as
  (**`RereadsAs`**); **`rereads_list`** hands it on.
* **`items_of_rereads`** is the run through an array.
* **`Rereads.nullable`**: a value that might be missing is read back, if none of its kind could be taken for the
  word that says so (**`Present`**).
-/

namespace Melody.Json

open Outcome

variable {α β : Type}

/-! ## First characters -/

theorem exists_digits_eq_cons (n : Nat) :
    ∃ c more, Decimal.digits n = c :: more ∧ Decimal.isDigit c = true := by
  cases h : Decimal.digits n with
  | nil => exact absurd h (Decimal.digits_ne_nil n)
  | cons c more =>
    refine ⟨c, more, rfl, Decimal.isDigit_of_mem_digits (n := n) ?_⟩
    rw [h]
    exact List.mem_cons_self

/-- A number without exponent starts with a digit, which may be the zero in front of the point. -/
theorem exists_plain_eq_cons (layout : Decimal.Layout) (d : Decimal.Scientific) :
    ∃ c more, layout.plain d = c :: more ∧ Decimal.isDigit c = true := by
  obtain ⟨c, more, hdigits, hc⟩ := exists_digits_eq_cons d.significand
  rw [Decimal.Layout.plain, hdigits]
  dsimp only
  -- the point behind the digits, among them, or before all of them
  split
  · split
    · exact ⟨c, _, rfl, hc⟩
    · exact ⟨c, _, rfl, hc⟩
  · split
    · next hplaces =>
      obtain ⟨k, hk⟩ : ∃ k, (c :: more).length - (-d.exponent).toNat = k + 1 :=
        Nat.exists_eq_succ_of_ne_zero (by omega)
      rw [hk]
      exact ⟨c, _, rfl, hc⟩
    · exact ⟨'0', _, rfl, rfl⟩

theorem exists_scientific_eq_cons (d : Decimal.Scientific) :
    ∃ c more, Decimal.Layout.scientific d = c :: more ∧ Decimal.isDigit c = true := by
  obtain ⟨c, more, hdigits, hc⟩ := exists_digits_eq_cons d.significand
  rw [Decimal.Layout.scientific, hdigits]
  cases more with
  | nil => exact ⟨c, _, rfl, hc⟩
  | cons d more => exact ⟨c, _, rfl, hc⟩

/-- A float begins like a number, or like the missing value. -/
theorem exists_render_eq_cons (x : Float) :
    ∃ c more, Decimal.document.render x = c :: more ∧ (Codec.startsNumber c = true ∨ c = 'n') := by
  have hdigit {size : List Char} (h : ∃ c more, size = c :: more ∧ Decimal.isDigit c = true) :
      ∃ c more, size = c :: more ∧ (Codec.startsNumber c = true ∨ c = 'n') := by
    obtain ⟨c, more, hsize, hc⟩ := h
    refine ⟨c, more, hsize, .inl ?_⟩
    rw [Codec.startsNumber, hc, Bool.or_true]
  rw [Decimal.Layout.render]
  split
  · split
    · -- what is no finite number is written as the word for nothing
      exact ⟨'n', _, rfl, .inr rfl⟩
    · split
      · exact ⟨'n', _, rfl, .inr rfl⟩
      · exact ⟨'n', _, rfl, .inr rfl⟩
  · dsimp only
    split
    · exact ⟨'-', _, rfl, .inl rfl⟩
    · apply hdigit
      split
      · exact exists_plain_eq_cons _ _
      · split
        · exact exists_plain_eq_cons _ _
        · exact exists_scientific_eq_cons _

theorem exists_signed_eq_cons (i : Int) :
    ∃ c more, Decimal.signed i = c :: more ∧ Codec.startsNumber c = true := by
  cases i with
  | ofNat n =>
    obtain ⟨c, more, hdigits, hc⟩ := exists_digits_eq_cons n
    refine ⟨c, more, hdigits, ?_⟩
    rw [Codec.startsNumber, hc, Bool.or_true]
  | negSucc n => exact ⟨'-', _, rfl, rfl⟩

/-- What a value begins with is no blank and closes no array. -/
theorem Value.chars_eq_cons (v : Value) (style : Style) :
    ∃ c more, v.chars style = c :: more ∧ isSpace c = false ∧ c ≠ ']' := by
  -- neither a digit nor a sign nor the word for nothing is white space or closes an array
  have hnumber {c : Char} (h : Codec.startsNumber c = true ∨ c = 'n') : isSpace c = false ∧ c ≠ ']' := by
    rcases h with h | rfl
    · refine ⟨eq_false_of_ne_true fun hspace => ?_, ?_⟩
      · simp only [isSpace, Bool.or_eq_true, beq_iff_eq] at hspace
        rcases hspace with ((rfl | rfl) | rfl) | rfl
        all_goals exact absurd h (by decide)
      · rintro rfl
        exact absurd h (by decide)
    · decide
  cases v with
  | null => exact ⟨'n', _, by rw [Value.chars], by decide⟩
  | bool b =>
    cases b with
    | true => exact ⟨'t', _, by rw [Value.chars], by decide⟩
    | false => exact ⟨'f', _, by rw [Value.chars], by decide⟩
  | number n =>
    rw [Value.chars]
    cases n with
    | integer i =>
      obtain ⟨c, more, hchars, hc⟩ := exists_signed_eq_cons i
      exact ⟨c, more, hchars, hnumber (.inl hc)⟩
    | real x =>
      obtain ⟨c, more, hchars, hc⟩ := exists_render_eq_cons x
      exact ⟨c, more, hchars, hnumber hc⟩
  | string s =>
    rw [Value.chars]
    exact ⟨'"', _, rfl, by decide⟩
  | array items =>
    cases items with
    | nil => exact ⟨'[', _, by rw [Value.chars], by decide⟩
    | cons item items => exact ⟨'[', _, by rw [Value.chars]; rfl, by decide⟩
  | object members =>
    cases members with
    | nil => exact ⟨'\x7b', _, by rw [Value.chars], by decide⟩
    | cons member members => exact ⟨'\x7b', _, by rw [Value.chars]; rfl, by decide⟩

/-! ## The law -/

/-- Blanks in front of a text that does not begin with one are skipped. -/
theorem skipSpace_append {blanks text : List Char} (hblanks : ∀ c ∈ blanks, isSpace c = true)
    (h : ∀ c ∈ text.head?, isSpace c = false) : skipSpace (blanks ++ text) = text := by
  rw [skipSpace, List.dropWhile_append_of_pos hblanks]
  cases text with
  | nil => rfl
  | cons c rest =>
    have hc := h c rfl
    rw [List.dropWhile_cons_of_neg (by rw [hc]; exact Bool.false_ne_true)]

/-- What the indented style puts between the parts is white space. -/
theorem isSpace_of_mem_lineBreak (style : Style) {c : Char} (h : c ∈ style.lineBreak) :
    isSpace c = true := by
  cases style with
  | compact => cases h
  | indented level =>
    rcases List.mem_cons.1 h with rfl | h
    · rfl
    · rw [List.eq_of_mem_replicate h]
      rfl

/-- White space in front of a value is passed over, and nothing of the value is. -/
theorem skipSpace_chars {blanks : List Char} (hblanks : ∀ c ∈ blanks, isSpace c = true) (v : Value)
    (style : Style) (rest : List Char) :
    skipSpace (blanks ++ (v.chars style ++ rest)) = v.chars style ++ rest := by
  obtain ⟨c, more, hchars, hc, -⟩ := v.chars_eq_cons style
  rw [hchars]
  apply skipSpace_append hblanks
  intro d hd
  rw [← Option.some.inj hd]
  exact hc

/-- There is no blank in front of a value. -/
theorem skipSpace_chars_append (v : Value) (style : Style) (rest : List Char) :
    skipSpace (v.chars style ++ rest) = v.chars style ++ rest :=
  skipSpace_chars (List.forall_mem_nil _) v style rest

theorem skipSpace_chars_self (v : Value) (style : Style) :
    skipSpace (v.chars style) = v.chars style ++ [] := by
  have hchars := skipSpace_chars_append v style []
  rwa [List.append_nil] at hchars ⊢

namespace Codec

/-- What is written for one value is read as another, which is most often the same, in front of any text
that does not go on with a number. -/
def Rereads (c : Codec α) (a b : α) : Prop :=
  ∀ (style : Style) (text rest : List Char), skipSpace text = (c.write a).chars style ++ rest →
    Ends rest → c.read text = .ok (b, rest)

/-- A view of the values is read back if it undoes the way back. -/
theorem Rereads.map {c : Codec α} {view : α → β} {back : β → α} {a : α} {b d : β}
    (h : c.Rereads (back b) a) (hview : view a = d) : (c.map view back).Rereads b d := by
  intro style text rest htext hrest
  show (c.read text).map _ = _
  rw [h style text rest htext hrest, ← hview]
  rfl

/-- A document is one value and then the end of the text. -/
theorem Rereads.ofText {c : Codec α} {a b : α} (h : c.Rereads a b) (style : Style) :
    c.ofText ((c.write a).chars style) = .ok b := by
  rw [Codec.ofText, h style _ [] (skipSpace_chars_self _ style) ends_nil]
  rfl

/-! ## Scalars -/

/-- A value that starts as it should is read by its own reader. -/
theorem scalar_of_skipSpace {starts : Char → Bool} {read : Reader α} {text more : List Char} {c : Char}
    (hc : starts c = true) (h : skipSpace text = c :: more) :
    scalar starts read text = read (c :: more) := by
  rw [scalar, h]
  dsimp only
  rw [if_pos hc]

/-- An integer comes back if its type knows it and it has 64 bits. -/
theorem rereads_integer {ofInt? : Int → Option α} {toInt : α → Int} {a : α}
    (hback : ofInt? (toInt a) = some a) (hlow : -0x8000000000000000 ≤ toInt a)
    (hhigh : toInt a < UInt64.size) : (integer ofInt? toInt).Rereads a a := by
  intro style text rest htext hrest
  obtain ⟨c, more, hchars, hc⟩ := exists_signed_eq_cons (toInt a)
  have hread := settled_readNumber _ _ _ rest (readNumber_signed hlow hhigh) hrest
  rw [hchars] at hread
  -- the text of the value begins at the first character of the number
  have hskip : skipSpace text = c :: (more ++ rest) := by
    rw [htext, ← List.cons_append, ← hchars]
    show (Value.number (.integer (toInt a))).chars style ++ rest = _
    rw [Value.chars]
    rfl
  rw [integer]
  dsimp only
  rw [scalar_of_skipSpace hc hskip, ← List.cons_append, hread]
  dsimp only [bind, Except.bind]
  rw [hback]
  rfl

/-- Signed words are read back. -/
theorem rereads_int32 (n : Int32) : int32.Rereads n n := by
  have hlow := n.minValue_le_toInt
  have hhigh := n.toInt_le
  have hmin : Int32.minValue.toInt = -2147483648 := rfl
  have hmax : Int32.maxValue.toInt = 2147483647 := rfl
  have hsize : (UInt64.size : Int) = 18446744073709551616 := rfl
  apply rereads_integer
  · rw [if_pos ⟨hlow, hhigh⟩, Int32.ofInt_toInt]
  · omega
  · omega

/-- Words without sign come back, whatever their width up to that of the reader. -/
theorem rereads_unsigned {size : Nat} {ofNat : Nat → α} {toNat : α → Nat} {a : α}
    (hsize : size ≤ UInt64.size) (hlt : toNat a < size) (hback : ofNat (toNat a) = a) :
    (integer (fun i => if 0 ≤ i ∧ i < size then some (ofNat i.toNat) else none)
      fun a => (toNat a : Int)).Rereads a a := by
  have hword : (UInt64.size : Int) = 18446744073709551616 := rfl
  apply rereads_integer
  · rw [if_pos (by omega), Int.toNat_natCast, hback]
  · omega
  · omega

theorem rereads_uint32 (n : UInt32) : uint32.Rereads n n :=
  rereads_unsigned (by decide) n.toNat_lt_size UInt32.ofNat_toNat

theorem rereads_uint16 (n : UInt16) : uint16.Rereads n n :=
  rereads_unsigned (by decide) n.toNat_lt_size UInt16.ofNat_toNat

/-- The text of the first float, with nothing around it, is read as the second and to its end. -/
def RereadsAs (x y : Float) : Prop :=
  (readNumber (Decimal.document.render x)).map (fun (n, rest) => (n.toFloat, rest)) = .ok (y, [])

instance (x y : Float) : Decidable (RereadsAs x y) := inferInstanceAs (Decidable (_ = _))

/-- A float is read back as whatever float its own text reads as. -/
theorem rereads_float {x y : Float} (h : RereadsAs x y) : float.Rereads x y := by
  obtain ⟨n, hread, rfl⟩ : ∃ n, readNumber (Decimal.document.render x) = .ok (n, []) ∧ n.toFloat = y := by
    rw [RereadsAs] at h
    cases hread : readNumber (Decimal.document.render x) with
    | error fault =>
      rw [hread] at h
      cases h
    | ok result =>
      rw [hread] at h
      obtain ⟨hfloat, hrest⟩ := Prod.mk.inj (Except.ok.inj h)
      exact ⟨result.1, congrArg Except.ok (Prod.ext rfl hrest), hfloat⟩
  intro style text rest htext hrest
  have htext : skipSpace text = Decimal.document.render x ++ rest := by
    rw [htext]
    show (Value.number (.real x)).chars style ++ rest = _
    rw [Value.chars]
    rfl
  obtain ⟨c, more, hchars, hc⟩ := exists_render_eq_cons x
  rw [hchars] at hread
  rw [hchars, List.cons_append] at htext
  -- the text that is read by itself is read alike in front of the rest of the document
  have hread := settled_readNumber _ _ _ rest hread hrest
  rw [List.cons_append] at hread
  have hc : startsNumber c = true := by
    rcases hc with hc | rfl
    · exact hc
    · cases hread
  rw [float]
  dsimp only
  rw [scalar_of_skipSpace hc htext, hread]
  rfl

/-- Of two roundings one may be too many: four elevenths are read as the float above. -/
example : RereadsAs (4 / 11) (Float.ofBits ((4 / 11 : Float).toBits + 1)) := by decide +kernel

/-- Strings are read back, whatever characters they are made of. -/
theorem rereads_string (s : String) : string.Rereads s s := by
  intro style text rest htext _
  -- a string starts with its quote, so skipping blanks skips nothing of it
  have hskip : skipSpace text = '"' :: (s.toList.flatMap escaped ++ '"' :: rest) := by
    rw [htext]
    show (Value.string s).chars style ++ rest = _
    rw [Value.chars, stringChars, List.cons_append, List.cons_append, List.append_assoc]
    rfl
  rw [string]
  dsimp only
  rw [scalar_of_skipSpace rfl hskip]
  exact readText_stringChars s rest

end Codec

/-! ## Arrays -/

section Items

variable {item : Reader α} {consumes : item.Consumes} {first : Bool} {text : List Char}

/-- At the closing bracket the values of an array end. With `items_of_next` this is the loop's equation, which
no other proof has to unfold. -/
theorem items_of_none (h : nextItem first text = .ok none) :
    items item consumes first text = .ok ([], text) := by
  rw [items]
  -- the other two outcomes of the next item contradict `h`
  split
  · next hnext =>
    rw [h] at hnext
    cases hnext
  · rfl
  · next start hnext =>
    rw [h] at hnext
    cases hnext

/-- An item, and what comes behind it. -/
theorem items_of_next {start : List Char} (h : nextItem first text = .ok (some start)) :
    items item consumes first text = (do
      let (a, rest) ← item start
      let (more, rest) ← items item consumes false rest
      return (a :: more, rest)) := by
  rw [items]
  split
  · next hnext =>
    rw [h] at hnext
    cases hnext
  · next hnext =>
    rw [h] at hnext
    cases hnext
  · next start' hnext =>
    rw [h, Except.ok.injEq, Option.some.injEq] at hnext
    subst hnext
    -- the loop keeps a proof that the reader has taken something, which is dropped here
    split
    · next hitem =>
      rw [hitem]
      rfl
    · next a rest hitem =>
      dsimp only
      rw [hitem]
      show _ = (items item consumes false rest >>= fun behind => pure (a :: behind.1, behind.2))
      cases items item consumes false rest with
      | error fault => rfl
      | ok behind => rfl

theorem items_of_some {start rest last : List Char} {a : α} {more : List α}
    (h : nextItem first text = .ok (some start)) (hitem : item start = .ok (a, rest))
    (hmore : items item consumes false rest = .ok (more, last)) :
    items item consumes first text = .ok (a :: more, last) := by
  rw [items_of_next h, hitem]
  show (items item consumes false rest >>= fun behind => pure (a :: behind.1, behind.2)) = _
  rw [hmore]
  rfl

end Items

/-- A closing bracket is found behind the line break in front of it. -/
theorem skipSpace_close {style : Style} {c : Char} (hc : isSpace c = false) (rest : List Char) :
    skipSpace (style.lineBreak ++ c :: rest) = c :: rest := by
  apply skipSpace_append fun d hd => isSpace_of_mem_lineBreak style hd
  intro d hd
  rw [← Option.some.inj hd]
  exact hc

/-- Neither white space nor a bracket continues a number. -/
theorem ends_lineBreak (style : Style) {c : Char} (hc : continuesNumber c = false) (rest : List Char) :
    Ends (style.lineBreak ++ c :: rest) := by
  cases style with
  | compact => exact ends_cons hc rest
  | indented level => exact ends_cons (by decide) _

/-- Nor do the values that follow in an array. -/
theorem ends_itemsChars (style outer : Style) (values : List Value) (rest : List Char) :
    Ends (itemsChars style values ++ (outer.lineBreak ++ ']' :: rest)) := by
  cases values with
  | nil =>
    rw [itemsChars, List.nil_append]
    exact ends_lineBreak _ (by decide) _
  | cons value values =>
    rw [itemsChars]
    exact ends_cons (by decide) _

/-- Behind a comma the next value is found. -/
theorem nextItem_comma (style style' : Style) (v : Value) (rest : List Char) :
    nextItem false (',' :: (style.lineBreak ++ (v.chars style' ++ rest))) =
      .ok (some (v.chars style' ++ rest)) := by
  obtain ⟨c, more, hchars, -, hc⟩ := v.chars_eq_cons style'
  have hskip := skipSpace_chars (fun d hd => isSpace_of_mem_lineBreak style hd) v style' rest
  rw [hchars] at hskip ⊢
  have hcomma : skipSpace (',' :: (style.lineBreak ++ (c :: more ++ rest))) =
      ',' :: (style.lineBreak ++ (c :: more ++ rest)) := rfl
  rw [nextItem, hcomma]
  dsimp only
  rw [if_neg (by decide), if_neg Bool.false_ne_true, if_pos rfl, hskip]
  dsimp only [List.cons_append]
  -- a value never starts with the bracket that would close the list after a comma
  rw [if_neg hc]

theorem nextItem_first (style style' : Style) (v : Value) (rest : List Char) :
    nextItem true (style.lineBreak ++ (v.chars style' ++ rest)) = .ok (some (v.chars style' ++ rest)) := by
  obtain ⟨c, more, hchars, -, hc⟩ := v.chars_eq_cons style'
  have hskip := skipSpace_chars (fun d hd => isSpace_of_mem_lineBreak style hd) v style' rest
  rw [hchars] at hskip ⊢
  rw [nextItem, hskip]
  dsimp only [List.cons_append]
  rw [if_neg hc, if_pos rfl]

theorem nextItem_close (first : Bool) (style : Style) (rest : List Char) :
    nextItem first (style.lineBreak ++ ']' :: rest) = .ok none := by
  rw [nextItem, skipSpace_close (by decide)]
  dsimp only
  rw [if_pos rfl]

theorem closeArray_close (style : Style) (rest : List Char) :
    closeArray (style.lineBreak ++ ']' :: rest) = .ok rest := by
  rw [closeArray, skipSpace_close (by decide)]
  dsimp only
  rw [if_pos rfl]

namespace Codec

/-- The run through the items behind the first, up to the closing bracket on a line of its own. -/
theorem items_of_rereads {c : Codec α} {as bs : List α} (h : List.Forall₂ c.Rereads as bs)
    (style outer : Style) (rest : List Char) :
    items c.read c.consumes false (itemsChars style (as.map c.write) ++ (outer.lineBreak ++ ']' :: rest)) =
      .ok (bs, outer.lineBreak ++ ']' :: rest) := by
  -- along the written list: every further item stands behind its comma
  induction h with
  | nil =>
    rw [List.map_nil, itemsChars, List.nil_append]
    exact items_of_none (nextItem_close _ _ _)
  | @cons a b as bs hab _ ih =>
    rw [List.map_cons, itemsChars, List.append_assoc, List.cons_append, List.cons_append,
      List.append_assoc]
    exact items_of_some (nextItem_comma style style _ _)
      (hab style _ _ (skipSpace_chars_append _ style _) (ends_itemsChars style outer _ rest)) ih

/-- An array of values is read back value by value. -/
theorem rereads_list {c : Codec α} {as bs : List α} (h : List.Forall₂ c.Rereads as bs) :
    c.list.Rereads as bs := by
  intro style text rest htext hrest
  -- whatever the style, the values stand between two brackets
  have hread {inside : List Char} (outer : Style) (hskip : skipSpace text = '[' :: inside)
      (hitems : items c.read c.consumes true inside = .ok (bs, outer.lineBreak ++ ']' :: rest)) :
      c.list.read text = .ok (bs, rest) := by
    rw [list]
    dsimp only
    rw [scalar_of_skipSpace rfl hskip]
    dsimp only [List.tail_cons]
    rw [hitems]
    show (closeArray _ >>= fun rest => pure (bs, rest)) = _
    rw [closeArray_close]
    rfl
  cases h with
  | nil =>
    -- the brackets of an empty array stand on one line, whatever the style
    refine hread .compact ?_ (items_of_none (nextItem_close true .compact rest))
    rw [htext]
    show (Value.array []).chars style ++ rest = _
    rw [Value.chars]
    rfl
  | @cons a b as bs hab h =>
    have hends := ends_itemsChars style.inner style (as.map c.write) rest
    refine hread style ?_ (items_of_some (nextItem_first style.inner style.inner _ _)
      (hab style.inner _ _ (skipSpace_chars_append _ style.inner _) hends)
      (items_of_rereads h style.inner style rest))
    rw [htext]
    show (Value.array (c.write a :: as.map c.write)).chars style ++ rest = _
    rw [Value.chars]
    simp only [List.cons_append, List.append_assoc, List.nil_append]

/-! ## Values that may be missing -/

/-- No value that is read begins like the word for a missing one. -/
def Present (c : Codec α) : Prop :=
  ∀ text rest out, skipSpace text = 'n' :: rest → c.read text ≠ .ok out

variable {c : Codec α}

/-- A value whose first character is never that of `null` is told from `null` by it. -/
theorem present_scalar {starts : Char → Bool} {read : Reader α} {write : α → Value}
    (consumes : (scalar starts read).Consumes) (hstarts : starts 'n' = false) :
    Present ⟨scalar starts read, write, consumes⟩ := by
  intro text rest out htext
  show scalar starts read text ≠ .ok out
  rw [scalar, htext]
  dsimp only
  rw [if_neg (by rw [hstarts]; exact Bool.false_ne_true)]
  exact nofun

theorem present_float : float.Present := present_scalar _ rfl

theorem present_string : string.Present := present_scalar _ rfl

theorem Present.map {view : α → β} {back : β → α} (h : c.Present) : (c.map view back).Present := by
  intro text rest out htext hread
  have hread : (c.read text).map _ = .ok out := hread
  cases hinner : c.read text with
  | error fault =>
    rw [hinner] at hread
    cases hread
  | ok inner => exact h text rest inner htext hinner

/-- A value that may be missing is read back as one that is there. -/
theorem Rereads.nullable {a b : α} (h : c.Rereads a b) (hpresent : c.Present) :
    c.nullable.Rereads (some a) (some b) := by
  intro style text rest htext hrest
  have htext : skipSpace text = (c.write a).chars style ++ rest := htext
  rw [Codec.nullable]
  dsimp only
  split
  · next behind hbehind => exact absurd (h style text rest htext hrest) (hpresent text behind _ hbehind)
  · rw [h style (skipSpace text) rest (by rw [htext, skipSpace_chars_append]) hrest]
    rfl

end Codec

end Melody.Json
