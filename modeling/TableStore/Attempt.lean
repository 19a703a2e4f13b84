import TableStore.Error

/-!
# Steps that may fail

- an `Attempt` is a step on a state that gives a result or an error, and in either case the state it leaves: what
  was done before a failure stays done until someone undoes it;
- attempts run one after another up to the first failure (`bind_apply`, `forEach`).
-/

namespace TableStore

universe u

/-- A step on a state of type `σ` that gives an `α` or fails. -/
def Attempt (σ : Type u) (α : Type u) : Type u := σ → Except Error α × σ

namespace Attempt

variable {σ α β : Type u}

/-- The step that gives a value and leaves the state. -/
protected def pure (a : α) : Attempt σ α := fun s => (.ok a, s)

/-- One step, then another if the first succeeds. -/
protected def bind (x : Attempt σ α) (f : α → Attempt σ β) : Attempt σ β := fun s =>
  match x s with
  | (.ok a, s') => f a s'
  | (.error e, s') => (.error e, s')

instance : Monad (Attempt σ) where
  pure := Attempt.pure
  bind := Attempt.bind

/-- The step that fails and leaves the state. -/
def fail (e : Error) : Attempt σ α := fun s => (.error e, s)

/-- What a function says about the state, which it leaves. -/
def read (f : σ → Except Error α) : Attempt σ α := fun s => (f s, s)

/-- The step that changes the state. -/
def change (f : σ → σ) : Attempt σ PUnit := fun s => (.ok ⟨⟩, f s)

/-- The step that makes the whole of a change, or fails and leaves the state. -/
def whole (f : σ → Except Error (α × σ)) : Attempt σ α := fun s =>
  match f s with
  | .ok r => (.ok r.1, r.2)
  | .error e => (.error e, s)

/-- A step for every element of a list. -/
def forEach {ι : Type u} (f : ι → Attempt σ PUnit) : List ι → Attempt σ PUnit
  | [] => pure ⟨⟩
  | i :: is => do f i; forEach f is

@[simp] theorem pure_apply (a : α) (s : σ) : (pure a : Attempt σ α) s = (.ok a, s) := rfl

@[simp] theorem fail_apply (e : Error) (s : σ) : (fail e : Attempt σ α) s = (.error e, s) := rfl

@[simp] theorem read_apply (f : σ → Except Error α) (s : σ) : read f s = (f s, s) := rfl

@[simp] theorem change_apply (f : σ → σ) (s : σ) : change f s = (.ok ⟨⟩, f s) := rfl

/-- A failure ends the run and keeps the state of that moment. -/
theorem bind_apply (x : Attempt σ α) (f : α → Attempt σ β) (s : σ) :
    (x >>= f) s = match x s with
      | (.ok a, s') => f a s'
      | (.error e, s') => (.error e, s') := rfl

end Attempt

end TableStore
