/-!
# Computations that can fail

Offsets are checked and texts are read in computations that end with the first error, whatever the
type of errors is. This file says what is known of the steps of such a computation if it succeeds.

* `ok_bind`, `pure_eq_ok` : a step that succeeds hands on its value;
* `exists_of_bind`, `exists_of_map` : all steps of a computation that succeeds have succeeded.
-/

namespace Emmet

variable {ε α β : Type}

@[simp] theorem ok_bind (a : α) (f : α → Except ε β) : ((.ok a : Except ε α) >>= f) = f a := rfl

@[simp] theorem pure_eq_ok (a : α) : (pure a : Except ε α) = .ok a := rfl

theorem exists_of_bind {x : Except ε α} {f : α → Except ε β} {b : β} (h : x >>= f = .ok b) :
    ∃ a, x = .ok a ∧ f a = .ok b := by
  cases x with
  | error e => cases h
  | ok a => exact ⟨a, rfl, h⟩

theorem exists_of_map {x : Except ε α} {f : α → β} {b : β} (h : x.map f = .ok b) :
    ∃ a, x = .ok a ∧ f a = b := by
  cases x with
  | error e => cases h
  | ok a => exact ⟨a, rfl, Except.ok.inj h⟩

end Emmet
