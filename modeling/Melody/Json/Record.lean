import Melody.Json.Codec
import Melody.Json.Passing

/-!
# Records in documents

Records have two readings: an object with their fields as members, in any order, unknown members passed
over; or an array with their fields in order. A `Row` describes the fields for both. A field may have a
fallback for when it is missing; in the array form only fields at the end can be missing. A member that
occurs twice, or a missing field without fallback, is a document of the wrong shape; an array that goes on
behind the last field is malformed.
-/

namespace Melody.Json

/-- The fields of a record. -/
structure Row (α : Type) where
  /-- What has been read of the fields. -/
  Draft : Type
  blank : Draft
  /-- Reads on behind the key of a member; none if no field has that key. -/
  member : String → Draft → List Char → Option (Except DocumentFault (Draft × List Char))
  /-- The record of what has been read. -/
  finish : Draft → Except DocumentFault α
  /-- Reads the fields in order from the items of an array, the first of them if nothing was read. -/
  inOrder : Bool → Reader α
  write : α → List (String × Value)
  /-- A member uses up text. -/
  member_shortens : ∀ key draft text result, member key draft text = some result →
    Guarantees (fun (_, rest) => rest.length < text.length) result
  /-- Fields in order lengthen nothing; where none is left to read, the text stays. -/
  inOrder_shortens : ∀ first text,
    Guarantees (fun (_, rest) => rest.length ≤ text.length) (inOrder first text)

namespace Row

variable {α β : Type}

/-- No fields. -/
def done : Row Unit where
  Draft := Unit
  blank := ()
  member _ _ _ := none
  finish _ := .ok ()
  inOrder _ text := .ok ((), text)
  write _ := []
  member_shortens _ _ _ _ h := nomatch h
  inOrder_shortens _ _ := .ok (Nat.le_refl _)

/-- A field in front of others, with its fallback, and with a test for values that are not written. -/
def field (name : String) (c : Codec α) (fallback : Option α) (isOmitted : α → Bool) (rest : Row β) :
    Row (α × β) where
  Draft := Option α × rest.Draft
  blank := (none, rest.blank)
  member key draft text :=
    if key = name then
      some do
        if draft.1.isSome then throw .mismatched
        let text ← colon text
        let (a, text) ← c.read text
        return ((some a, draft.2), text)
    else
      (rest.member key draft.2 text).map fun result =>
        result.map fun (others, text) => ((draft.1, others), text)
  finish draft := do
    match draft.1 <|> fallback with
    | some a => return (a, ← rest.finish draft.2)
    | none => throw .mismatched
  inOrder first text := do
    match ← nextItem first text with
    | some start =>
      let (a, text) ← c.read start
      let (b, text) ← rest.inOrder false text
      return ((a, b), text)
    | none =>
      match fallback with
      | some a =>
        let (b, text) ← rest.inOrder first text
        return ((a, b), text)
      | none => throw .mismatched
  write ab :=
    let others := rest.write ab.2
    if isOmitted ab.1 then others else (name, c.write ab.1) :: others
  member_shortens key draft text result h := by
    dsimp only at h
    split at h
    · cases h
      split
      · exact .error
      refine .bind (length_colon text) fun behind hcolon => ?_
      exact .bind (c.consumes behind) fun (a, after) h => .ok (Nat.lt_trans h hcolon)
    · obtain ⟨inner, hinner, rfl⟩ := Option.map_eq_some_iff.1 h
      exact .map (rest.member_shortens key draft.2 text inner hinner) fun _ h => h
  inOrder_shortens first text := by
    dsimp only
    refine .bind (P := fun next => ∀ start, next = some start → start.length ≤ text.length)
      (fun next h start hstart => length_nextItem (hstart ▸ h)) fun next hnext => ?_
    split
    · next start =>
      have hstart := hnext start rfl
      refine .bind (c.consumes start) fun (a, after) h => ?_
      refine .bind (rest.inOrder_shortens false after) fun (b, behind) hrest => .ok ?_
      dsimp only at *
      omega
    · split
      · exact .bind (rest.inOrder_shortens first text) fun (b, behind) h => .ok h
      · exact .error

/-- A field that must be there. -/
def required (name : String) (c : Codec α) (rest : Row β) : Row (α × β) :=
  field name c none (fun _ => false) rest

/-- A field with a fallback, written all the same. -/
def defaulted (name : String) (c : Codec α) (fallback : α) (rest : Row β) : Row (α × β) :=
  field name c (some fallback) (fun _ => false) rest

/-- A field that may be missing, and then is not written. -/
def optional (name : String) (c : Codec α) (rest : Row β) : Row (Option α × β) :=
  field name c.nullable (some none) Option.isNone rest

/-- Reads a member, or passes over one that is no field. -/
def step (row : Row α) (key : String) (draft : row.Draft) : Reader row.Draft := fun text =>
  match row.member key draft text with
  | some result => result
  | none => do
    let text ← colon text
    return (draft, ← pass text)

theorem step_consumes (row : Row α) (key : String) (draft : row.Draft) :
    (row.step key draft).Consumes := by
  intro text
  unfold step
  split
  · next result h => exact row.member_shortens key draft text result h
  · refine .bind (length_colon text) fun behind hcolon => ?_
    refine .bind (length_passWithin [] behind) fun after h => .ok ?_
    exact Nat.lt_trans h hcolon

/-- The codec of the record. -/
def codec (row : Row α) : Codec α where
  read text :=
    match skipSpace text with
    | [] => .error .ended
    | c :: rest =>
      if c = '\x7b' then do
        let (draft, rest) ← members row.step row.step_consumes true row.blank rest
        return (← row.finish draft, ← closeObject rest)
      else if c = '[' then do
        let (a, rest) ← row.inOrder true rest
        return (a, ← closeArray rest)
      else .error (wrongKind (c :: rest))
  write a := .object (row.write a)
  consumes text := by
    dsimp only
    split
    · exact .error
    · next c rest hrest =>
      have hrest := length_of_skipSpace hrest
      split
      · refine .bind (length_members row.step_consumes true row.blank rest)
          fun (draft, after) h => ?_
        refine .bind (P := fun _ => True) (fun _ _ => trivial) fun _ _ => ?_
        refine .bind (length_closeObject after) fun behind hclose => .ok ?_
        dsimp only at *
        omega
      · split
        · refine .bind (row.inOrder_shortens true rest) fun (a, after) h => ?_
          refine .bind (length_closeArray after) fun behind hclose => .ok ?_
          dsimp only at *
          omega
        · exact .error

end Row

end Melody.Json
