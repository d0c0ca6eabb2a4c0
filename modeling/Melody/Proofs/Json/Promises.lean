import Melody.Json.Record
import Melody.Proofs.Float.Finite

/-!
# What is known of a value that was read

A document may be written in many ways: fields out of order, missing or with others among them, records as
arrays. Whatever is read from it has been read by the readers of its parts, and what these promise holds of it.

## The architecture

* **`Codec.Promises`** says that all values that are read have a property. It is handed on along the readers, as
  their lengths are (`Guarantees`): **`Promises.list`**, **`Promises.nullable`**, **`Promises.map`**.
* **`Row.Keeps`** is what a record needs: something that is known of every draft, since each member keeps it, and
  that gives the property in the end. **`Row.Keeps.field`** puts a field in front, and **`Row.Keeps.codec`** is the
  run through either form of a record.
* **`Codec.promises_float`**: floats that are read are finite.
-/

namespace Melody.Json

variable {α β σ : Type}

/-! ## Numbers -/

namespace Number

/-- An integer as a float is finite: the largest is far below the range. -/
theorem isFinite_integer (i : Int) : (Number.integer i).toFloat.isFinite = true := by
  cases i with
  | ofNat n => exact Decimal.isFinite_of_isAmount (Decimal.isAmount_significand _)
  | negSucc n => exact Decimal.isFinite_neg (Decimal.isFinite_of_isAmount (Decimal.isAmount_significand _))

end Number

/-- Every number that is read is finite as a float. A number text above the range is an error, not an
infinity. -/
theorem Numeral.isFinite_value (n : Numeral) :
    Guarantees (fun m => m.toFloat.isFinite = true) n.value := by
  unfold Numeral.value
  dsimp only
  split
  · -- the value is scaled by a power of ten, which refuses what is too large
    split
    · exact .error
    · next x hx =>
      have hfinite := Decimal.isFinite_of_ofParts hx
      refine .ok ?_
      show (if n.negative then -x else x).isFinite = true
      split
      · exact Decimal.isFinite_neg hfinite
      · exact hfinite
  · split
    · exact .ok (Number.isFinite_integer _)
    · split
      · exact .ok (Number.isFinite_integer _)
      · exact .ok (Decimal.isFinite_neg (Decimal.isFinite_of_isAmount (Decimal.isAmount_significand _)))

theorem isFinite_readNumber (text : List Char) :
    Guarantees (fun out => out.1.toFloat.isFinite = true) (readNumber text) := by
  refine .of_next fun (numeral, rest) => ?_
  exact .bind numeral.isFinite_value fun m h => .ok h

/-! ## Codecs -/

namespace Codec

/-- Whatever text a value is read from, it has the property. -/
def Promises (c : Codec α) (P : α → Prop) : Prop :=
  ∀ text, Guarantees (fun out => P out.1) (c.read text)

variable {c : Codec α} {P : α → Prop}

theorem promises_true (c : Codec α) : c.Promises fun _ => True := fun _ _ _ => trivial

/-- A view of the values promises what the view of each of them does. -/
theorem Promises.map {Q : β → Prop} {view : α → β} {back : β → α} (h : c.Promises P)
    (hview : ∀ a, P a → Q (view a)) : (c.map view back).Promises Q :=
  fun text => .map (h text) fun out hout => hview out.1 hout

theorem Promises.ofText (h : c.Promises P) (text : List Char) : Guarantees P (c.ofText text) := by
  refine .bind (h text) fun (a, rest) ha => ?_
  dsimp only
  split
  · exact .ok ha
  · exact .error

/-- The first character only decides whether there is a value at all. -/
theorem guarantees_scalar {starts : Char → Bool} {read : Reader α} {Q : α × List Char → Prop}
    {text : List Char} (h : ∀ text, Guarantees Q (read text)) : Guarantees Q (scalar starts read text) := by
  unfold scalar
  split
  · exact .error
  · split
    · exact h _
    · exact .error

/-- No text is read as a float that is not finite. -/
theorem promises_float : float.Promises fun x => x.isFinite = true := by
  intro text
  rw [float]
  dsimp only
  refine guarantees_scalar fun text => ?_
  exact .bind (isFinite_readNumber text) fun _ h => .ok h

/-- The promise holds for every value of an array. Induction over the values that are read. -/
theorem guarantees_items {item : Reader α} (consumes : item.Consumes)
    (h : ∀ text, Guarantees (fun out => P out.1) (item text)) (first : Bool) (text : List Char) :
    Guarantees (fun out => ∀ a ∈ out.1, P a) (items item consumes first text) := by
  fun_induction items item consumes first text with
  | case2 => exact .ok (List.forall_mem_nil P)
  | case5 first text start hnext a rest hitem hlt more rest' hmore ih =>
    exact .ok (List.forall_mem_cons.2 ⟨h start _ hitem, ih _ hmore⟩)
  | _ => exact .error

theorem Promises.list (h : c.Promises P) : c.list.Promises fun as => ∀ a ∈ as, P a := by
  intro text
  rw [Codec.list]
  dsimp only
  refine guarantees_scalar fun text => ?_
  refine .bind (guarantees_items c.consumes h true text.tail) fun (as, rest) has => ?_
  exact .of_next fun _ => .ok has

/-- A value that may be missing promises it of what is there. -/
theorem Promises.nullable (h : c.Promises P) : c.nullable.Promises fun o => ∀ a, o = some a → P a := by
  intro text
  unfold Codec.nullable
  dsimp only
  split
  · refine .map (P := fun _ => True) (fun _ _ => trivial) fun out _ a ha => ?_
    cases ha
  · refine .map (h _) fun out hout a ha => ?_
    rw [← Option.some.inj ha]
    exact hout

end Codec

/-! ## Records -/

namespace Row

/-- What is known of all drafts, and of the record in the end. -/
structure Keeps (row : Row α) (known : row.Draft → Prop) (P : α → Prop) : Prop where
  blank : known row.blank
  member : ∀ key draft text result, known draft → row.member key draft text = some result →
    Guarantees (fun out => known out.1) result
  finish : ∀ draft, known draft → Guarantees P (row.finish draft)
  inOrder : ∀ first text, Guarantees (fun out => P out.1) (row.inOrder first text)

theorem keeps_done : done.Keeps (fun _ => True) fun _ => True where
  blank := trivial
  member _ _ _ _ _ h := nomatch h
  finish _ _ := .ok trivial
  inOrder _ _ := .ok trivial

section Field

variable {c : Codec α} {fallback : Option α} {isOmitted : α → Bool} {others : Row β}
  {known : others.Draft → Prop} {P : α → Prop} {Q : β → Prop}

/-- A field in front of others, whose fallback has the property too. -/
theorem Keeps.field (hothers : others.Keeps known Q) (name : String) (hc : c.Promises P)
    (hfallback : ∀ a, fallback = some a → P a) :
    (field name c fallback isOmitted others).Keeps
      (fun draft => (∀ a, draft.1 = some a → P a) ∧ known draft.2) fun ab => P ab.1 ∧ Q ab.2 where
  blank := ⟨nofun, hothers.blank⟩
  member key draft text result hknown h := by
    dsimp only [Row.field] at h
    split at h
    · cases h
      split
      · exact .error
      · refine .of_next fun text => ?_
        refine .bind (hc text) fun (a, rest) ha => .ok ⟨fun b hb => ?_, hknown.2⟩
        rw [← Option.some.inj hb]
        exact ha
    · -- a member of another field leaves this one as it was
      obtain ⟨inner, hinner, rfl⟩ := Option.map_eq_some_iff.1 h
      exact .map (hothers.member key draft.2 text inner hknown.2 hinner) fun out hout => ⟨hknown.1, hout⟩
  finish draft hknown := by
    -- the field that is not read takes the value that stands for it
    have hfirst : ∀ a, (draft.1 <|> fallback) = some a → P a := by
      cases hread : draft.1 with
      | none => exact hfallback
      | some b => exact fun a ha => hknown.1 a (hread.trans ha)
    dsimp only [Row.field]
    split
    · next a ha => exact .bind (hothers.finish draft.2 hknown.2) fun b hb => .ok ⟨hfirst a ha, hb⟩
    · exact .error
  inOrder first text := by
    refine .of_next fun next => ?_
    split
    · next start =>
      refine .bind (hc start) fun (a, rest) ha => ?_
      exact .bind (hothers.inOrder false rest) fun (b, rest) hb => .ok ⟨ha, hb⟩
    · split
      · next a =>
        exact .bind (hothers.inOrder first text) fun (b, rest) hb => .ok ⟨hfallback a rfl, hb⟩
      · exact .error

theorem Keeps.required (hothers : others.Keeps known Q) (name : String) (hc : c.Promises P) :
    (required name c others).Keeps
      (fun draft => (∀ a, draft.1 = some a → P a) ∧ known draft.2) fun ab => P ab.1 ∧ Q ab.2 :=
  hothers.field name hc nofun

/-- A field with a default keeps the promise if its default does. -/
theorem Keeps.defaulted (hothers : others.Keeps known Q) (name : String) (missing : α) (hc : c.Promises P)
    (hmissing : P missing) :
    (defaulted name c missing others).Keeps
      (fun draft => (∀ a, draft.1 = some a → P a) ∧ known draft.2) fun ab => P ab.1 ∧ Q ab.2 :=
  hothers.field name hc fun _ h => Option.some.inj h ▸ hmissing

/-- Of a value that may be missing something is known if it is there. -/
theorem Keeps.optional (hothers : others.Keeps known Q) (name : String) (hc : c.Promises P) :
    (optional name c others).Keeps
      (fun draft => (∀ o, draft.1 = some o → ∀ a, o = some a → P a) ∧ known draft.2)
      fun ob => (∀ a, ob.1 = some a → P a) ∧ Q ob.2 :=
  hothers.field name hc.nullable fun _ h => Option.some.inj h ▸ nofun

end Field

/-- Reading one member after the other keeps what is known of the draft, if each step does. -/
theorem guarantees_members {step : String → σ → Reader σ}
    (consumes : ∀ key draft, (step key draft).Consumes) {known : σ → Prop}
    (h : ∀ key draft text, known draft → Guarantees (fun out => known out.1) (step key draft text))
    (first : Bool) (draft : σ) (text : List Char) (hdraft : known draft) :
    Guarantees (fun out => known out.1) (members step consumes first draft text) := by
  fun_induction members step consumes first draft text with
  | case2 => exact .ok hdraft
  | case5 first draft text start hnext key behind hkey draft' rest hstep hlt ih =>
    exact ih (h key draft behind hdraft _ hstep)
  | _ => exact .error

/-- What the fields promise, the record keeps, whether it is read from an object or from an array. -/
theorem Keeps.codec {row : Row α} {known : row.Draft → Prop} {P : α → Prop} (h : row.Keeps known P) :
    row.codec.Promises P := by
  -- a member that is no field leaves the draft as it is
  have hstep : ∀ key draft text, known draft →
      Guarantees (fun out => known out.1) (row.step key draft text) := by
    intro key draft text hdraft
    unfold step
    split
    · next result hresult => exact h.member key draft text result hdraft hresult
    · refine .of_next fun text => ?_
      exact .of_next fun _ => .ok hdraft
  intro text
  unfold Row.codec
  dsimp only
  split
  · exact .error
  · next c rest _ =>
    split
    · refine .bind (guarantees_members row.step_consumes hstep true row.blank rest h.blank) fun out hout => ?_
      refine .bind (h.finish out.1 hout) fun a ha => ?_
      exact .of_next fun _ => .ok ha
    · split
      · exact .bind (h.inOrder true rest) fun out hout => .of_next fun _ => .ok hout
      · exact .error

end Row

end Melody.Json
