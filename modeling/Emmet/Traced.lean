/-!
# Computations with a record of events

A traced computation gives a value and the events that came up on the way, in order. What is written
to a log and what is asked of an engine are events, so both can be reasoned about as data.
-/

namespace Emmet

/-- A value and the events that came up while it was computed, in order. -/
structure Traced (ε α : Type) where
  value : α
  events : List ε := []

namespace Traced

variable {ε δ α β : Type}

instance : Monad (Traced ε) where
  pure a := ⟨a, []⟩
  bind x f := ⟨(f x.value).value, x.events ++ (f x.value).events⟩

/-- Records one event. -/
def emit (e : ε) : Traced ε Unit := ⟨(), [e]⟩

/-- Renames all events. -/
def mapEvents (f : ε → δ) (x : Traced ε α) : Traced δ α := ⟨x.value, x.events.map f⟩

@[simp] theorem value_pure (a : α) : (pure a : Traced ε α).value = a := rfl

@[simp] theorem events_pure (a : α) : (pure a : Traced ε α).events = [] := rfl

@[simp] theorem value_bind (x : Traced ε α) (f : α → Traced ε β) :
    (x >>= f).value = (f x.value).value := rfl

@[simp] theorem events_bind (x : Traced ε α) (f : α → Traced ε β) :
    (x >>= f).events = x.events ++ (f x.value).events := rfl

@[simp] theorem events_emit (e : ε) : (emit e).events = [e] := rfl

@[simp] theorem value_mapEvents (f : ε → δ) (x : Traced ε α) :
    (x.mapEvents f).value = x.value := rfl

@[simp] theorem events_mapEvents (f : ε → δ) (x : Traced ε α) :
    (x.mapEvents f).events = x.events.map f := rfl

/-- Runs a computation for every element and keeps the values that there are. -/
def filterMap (f : α → Traced ε (Option β)) : List α → Traced ε (List β)
  | [] => pure []
  | a :: as => do
    let b ← f a
    let bs ← filterMap f as
    return match b with
      | some b => b :: bs
      | none => bs

@[simp] theorem value_filterMap (f : α → Traced ε (Option β)) (as : List α) :
    (filterMap f as).value = as.filterMap fun a => (f a).value := by
  induction as with
  | nil => rfl
  | cons a as ih =>
    simp only [filterMap, value_bind, value_pure, ih, List.filterMap_cons]
    cases (f a).value <;> rfl

@[simp] theorem events_filterMap (f : α → Traced ε (Option β)) (as : List α) :
    (filterMap f as).events = as.flatMap fun a => (f a).events := by
  induction as with
  | nil => rfl
  | cons a as ih => simp [filterMap, ih]

end Traced

end Emmet
