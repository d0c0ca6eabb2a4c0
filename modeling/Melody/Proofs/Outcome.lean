import Mathlib.Data.List.Forall2

/-!
# Results that are values

When a sequence of computations has a value: each part has one (`bind_eq_ok_iff`), and so has each element of
a list that is worked through (`mapM_eq_ok_iff`). It fails with the first part that does (`bind_eq_error_iff`,
`mapM_eq_error_iff`).
-/

namespace Melody.Outcome

variable {ε α β : Type}

/-- A sequence succeeds if its first part does and then its second. -/
theorem bind_eq_ok_iff {first : Except ε α} {next : α → Except ε β} {b : β} :
    first >>= next = .ok b ↔ ∃ a, first = .ok a ∧ next a = .ok b := by
  cases first with
  | error fault => simp [bind, Except.bind]
  | ok a => simp [bind, Except.bind]

theorem pure_eq_ok_iff {a b : α} : (pure a : Except ε α) = .ok b ↔ a = b := by
  simp [pure, Except.pure]

/-- A sequence fails with the fault of its first part, or of its second behind a success. -/
theorem bind_eq_error_iff {first : Except ε α} {next : α → Except ε β} {fault : ε} :
    first >>= next = .error fault ↔ first = .error fault ∨ ∃ a, first = .ok a ∧ next a = .error fault := by
  cases first with
  | error cause => simp [bind, Except.bind]
  | ok a => simp [bind, Except.bind]

theorem pure_ne_error {a : α} {fault : ε} : (pure a : Except ε α) ≠ .error fault := by
  simp [pure, Except.pure]

theorem ite_eq_ok_iff {p : Prop} [Decidable p] {fault : ε} {a b : α} :
    (if p then .ok a else .error fault : Except ε α) = .ok b ↔ p ∧ a = b := by
  split
  · next hp => rw [Except.ok.injEq, and_iff_right hp]
  · next hp => exact iff_of_false nofun fun h => hp h.1

/-- That a result is a value can be computed where the value itself cannot. -/
theorem exists_eq_ok_of_isSome {r : Except ε α} (h : r.toOption.isSome = true) : ∃ a, r = .ok a := by
  cases r with
  | error fault => cases h
  | ok a => exact ⟨a, rfl⟩

/-- A list is worked through when every element has a value, and the values stand in its order. -/
theorem mapM_eq_ok_iff {f : α → Except ε β} {l : List α} {values : List β} :
    l.mapM f = .ok values ↔ List.Forall₂ (fun a b => f a = .ok b) l values := by
  induction l generalizing values with
  | nil =>
    rw [List.mapM_nil, pure_eq_ok_iff, List.forall₂_nil_left_iff, eq_comm]
  | cons a l ih =>
    rw [List.mapM_cons, List.forall₂_cons_left_iff, bind_eq_ok_iff]
    refine ⟨?_, ?_⟩
    · rintro ⟨b, hb, hrest⟩
      obtain ⟨more, hmore, hvalues⟩ := bind_eq_ok_iff.1 hrest
      exact ⟨b, more, hb, ih.1 hmore, (pure_eq_ok_iff.1 hvalues).symm⟩
    · rintro ⟨b, more, hb, hmore, rfl⟩
      exact ⟨b, hb, bind_eq_ok_iff.2 ⟨more, ih.2 hmore, rfl⟩⟩

/-- A list can be worked through when every element can. -/
theorem exists_mapM_eq_ok_iff {f : α → Except ε β} {l : List α} :
    (∃ values, l.mapM f = .ok values) ↔ ∀ a ∈ l, ∃ b, f a = .ok b := by
  induction l with
  | nil => exact iff_of_true ⟨[], rfl⟩ nofun
  | cons a l ih =>
    rw [List.forall_mem_cons, ← ih]
    constructor
    · rintro ⟨values, hvalues⟩
      rw [mapM_eq_ok_iff] at hvalues
      cases hvalues with
      | cons hab hrest => exact ⟨⟨_, hab⟩, _, mapM_eq_ok_iff.2 hrest⟩
    · rintro ⟨⟨b, hb⟩, values, hvalues⟩
      exact ⟨b :: values, mapM_eq_ok_iff.2 (.cons hb (mapM_eq_ok_iff.1 hvalues))⟩

/-- No element is left out when a list is worked through. -/
theorem exists_eq_ok_of_mem {f : α → Except ε β} {l : List α} {values : List β}
    (h : l.mapM f = .ok values) {a : α} (ha : a ∈ l) : ∃ b, f a = .ok b := by
  rw [mapM_eq_ok_iff] at h
  induction h with
  | nil => cases ha
  | @cons a' b l more hab _ ih =>
    rcases List.mem_cons.1 ha with rfl | ha
    · exact ⟨b, hab⟩
    · exact ih ha

/-- The failure of a list is that of the first element that has no value. -/
theorem mapM_eq_error_iff {f : α → Except ε β} {l : List α} {fault : ε} :
    l.mapM f = .error fault ↔ ∃ before a after, l = before ++ a :: after ∧
      (∀ x ∈ before, ∃ b, f x = .ok b) ∧ f a = .error fault := by
  constructor
  · intro h
    induction l with
    | nil => cases h
    | cons a l ih =>
      rw [List.mapM_cons, bind_eq_error_iff] at h
      -- the fault is that of the first element, or one of those behind it
      obtain ha | ⟨b, hb, h⟩ := h
      · exact ⟨[], a, l, rfl, List.forall_mem_nil _, ha⟩
      · obtain hl | ⟨_, -, h⟩ := bind_eq_error_iff.1 h
        · obtain ⟨before, c, after, rfl, hbefore, hc⟩ := ih hl
          exact ⟨a :: before, c, after, rfl, List.forall_mem_cons.2 ⟨⟨b, hb⟩, hbefore⟩, hc⟩
        · exact absurd h pure_ne_error
  · rintro ⟨before, a, after, rfl, hbefore, ha⟩
    obtain ⟨values, hvalues⟩ := exists_mapM_eq_ok_iff.2 hbefore
    rw [List.mapM_append, hvalues, List.mapM_cons, ha]
    rfl

/-- Two lists are worked through alike when their elements are, place by place. -/
theorem mapM_eq_mapM {γ : Type} {f : α → Except ε γ} {g : β → Except ε γ} {l : List α} {m : List β}
    (h : List.Forall₂ (fun a b => f a = g b) l m) : l.mapM f = m.mapM g := by
  induction h with
  | nil => rfl
  | cons hab _ ih => rw [List.mapM_cons, List.mapM_cons, hab, ih]

/-- What is done to the values of a list that was worked through may be done to the list itself. -/
theorem mapM_of_mapM_eq_ok {γ : Type} {f : α → Except ε β} {g : β → Except ε γ} {k : α → Except ε γ}
    {l : List α} {values : List β} (h : l.mapM f = .ok values)
    (hg : ∀ a b, f a = .ok b → g b = k a) : values.mapM g = l.mapM k := by
  rw [mapM_eq_ok_iff] at h
  induction h with
  | nil => rfl
  | @cons a b l more hab _ ih => rw [List.mapM_cons, List.mapM_cons, hg a b hab, ih]

/-- Where each value that there is agrees with a function, the list is worked through exactly when every
element has the value of that function. -/
theorem mapM_eq_ok_iff_map {f : α → Except ε β} {g : α → β} {l : List α} {values : List β}
    (hg : ∀ a b, f a = .ok b → b = g a) :
    l.mapM f = .ok values ↔ (∀ a ∈ l, f a = .ok (g a)) ∧ values = l.map g := by
  rw [mapM_eq_ok_iff]
  refine ⟨?_, ?_⟩
  · -- along the two lists: `hg` says that each value can only be `g` of its element
    intro h
    induction h with
    | nil => exact ⟨by simp, rfl⟩
    | @cons a b l more hab _ ih =>
      obtain ⟨hall, rfl⟩ := ih
      obtain rfl := hg a b hab
      exact ⟨by simpa using ⟨hab, hall⟩, rfl⟩
  · rintro ⟨hall, rfl⟩
    rw [List.forall₂_map_right_iff, List.forall₂_same]
    exact hall

/-- What one list has to do with two others, they have to do with each other. -/
theorem forall₂_of_common {γ : Type} {R : α → β → Prop} {S : α → γ → Prop} {T : β → γ → Prop} {l : List α}
    {bs : List β} {cs : List γ} (hbs : List.Forall₂ R l bs) (hcs : List.Forall₂ S l cs)
    (h : ∀ a b c, R a b → S a c → T b c) : List.Forall₂ T bs cs := by
  induction hbs generalizing cs with
  | nil =>
    cases hcs
    exact .nil
  | cons hab _ ih =>
    cases hcs with
    | cons hac hcs => exact .cons (h _ _ _ hab hac) (ih hcs)

/-- Lists that agree element by element under two views have equal images. -/
theorem map_eq_map_of_forall₂ {γ : Type} {f : α → γ} {g : β → γ} {l : List α} {m : List β}
    (h : List.Forall₂ (fun a b => f a = g b) l m) : l.map f = m.map g := by
  induction h with
  | nil => rfl
  | cons hab _ ih => rw [List.map_cons, List.map_cons, hab, ih]

/-- What is known of two values of one element holds place by place where a list is worked through twice. -/
theorem forall₂_of_mapM {γ : Type} {f : α → Except ε β} {g : α → Except ε γ} {R : β → γ → Prop} {l : List α}
    {bs : List β} {cs : List γ} (hbs : l.mapM f = .ok bs) (hcs : l.mapM g = .ok cs)
    (h : ∀ a ∈ l, ∀ b c, f a = .ok b → g a = .ok c → R b c) : List.Forall₂ R bs cs := by
  rw [mapM_eq_ok_iff] at hbs hcs
  induction hbs generalizing cs with
  | nil =>
    cases hcs
    exact .nil
  | cons hab _ ih =>
    cases hcs with
    | cons hac hcs =>
      rw [List.forall_mem_cons] at h
      exact .cons (h.1 _ _ hab hac) (ih hcs h.2)

/-- A change that commutes with what is done to every element commutes with working through a list. -/
theorem mapM_map_of_comm {f : α → Except ε β} {r : α → α} {s : β → β} {l : List α}
    (h : ∀ a ∈ l, f (r a) = (f a).map s) : (l.map r).mapM f = (l.mapM f).map (·.map s) := by
  induction l with
  | nil => rfl
  | cons a l ih =>
    rw [List.forall_mem_cons] at h
    rw [List.map_cons, List.mapM_cons, List.mapM_cons, h.1, ih h.2]
    -- the first fault stops both sides, whether it is of the first element or of a later one
    cases f a with
    | error fault => rfl
    | ok b =>
      cases l.mapM f with
      | error fault => rfl
      | ok bs => rfl

/-- A list is worked through once for all its copies, if there are any. -/
theorem mapM_flatten_replicate {f : α → Except ε β} {l : List α} {n : Nat} (hn : 0 < n) :
    (List.replicate n l).flatten.mapM f = (l.mapM f).map fun bs => (List.replicate n bs).flatten := by
  cases hl : l.mapM f with
  | error fault =>
    -- the fault comes up in the first copy, so there must be one
    obtain ⟨n, rfl⟩ := Nat.exists_eq_add_one_of_ne_zero (Nat.ne_of_gt hn)
    rw [List.replicate_succ, List.flatten_cons, List.mapM_append, hl]
    rfl
  | ok bs =>
    clear hn
    induction n with
    | zero => rfl
    | succ n ih =>
      rw [List.replicate_succ, List.flatten_cons, List.mapM_append, hl, ih]
      rfl

end Melody.Outcome
