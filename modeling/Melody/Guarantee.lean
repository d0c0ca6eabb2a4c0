/-!
# What a result promises

A computation that may fail promises something of its value, and nothing if it fails (`Guarantees`). What a
sequence of computations promises follows from what its parts do (`Guarantees.bind`), so that such facts are
shown along a definition, step by step.
-/

namespace Melody

variable {ε α β : Type}

/-- The value, if there is one, has a property. -/
def Guarantees (P : α → Prop) (result : Except ε α) : Prop := ∀ a, result = .ok a → P a

namespace Guarantees

variable {P : α → Prop} {Q : β → Prop}

/-- A failure promises anything. -/
theorem error {fault : ε} : Guarantees P (.error fault) := by
  intro a h
  cases h

theorem ok {a : α} (h : P a) : Guarantees P (.ok a : Except ε α) := by
  intro b hb
  cases hb
  exact h

/-- One computation after another: the second may rely on what the first promises. -/
theorem bind {first : Except ε α} {next : α → Except ε β} (hfirst : Guarantees P first)
    (hnext : ∀ a, P a → Guarantees Q (next a)) : Guarantees Q (first >>= next) := by
  cases first with
  | error fault => exact error
  | ok a => exact hnext a (hfirst a rfl)

/-- Of the first computation nothing needs to be known. -/
theorem of_next {first : Except ε α} {next : α → Except ε β} (hnext : ∀ a, Guarantees Q (next a)) :
    Guarantees Q (first >>= next) :=
  bind (P := fun _ => True) (fun _ _ => trivial) fun a _ => hnext a

theorem map {result : Except ε α} {f : α → β} (h : Guarantees P result)
    (hf : ∀ a, P a → Q (f a)) : Guarantees Q (result.map f) := by
  cases result with
  | error fault => exact error
  | ok a => exact ok (hf a (h a rfl))

end Guarantees

end Melody
