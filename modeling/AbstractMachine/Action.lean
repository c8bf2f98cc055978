/-
# AbstractMachine.Action — computations that change a state and may fail

An action takes a state to a result or a fault, and to the state afterwards. A fault does not undo
what was done before it: whoever looks at the state after a failed action sees how far it got.
-/
import AbstractMachine.Fault

namespace AbstractMachine

/-- A computation on a state of type `σ` that may fail and then keeps its changes. -/
abbrev Action (σ α : Type) := ExceptT Fault (StateM σ) α

namespace Action

variable {σ τ α β : Type}

/-- An answer that does not touch the state. -/
def ofExcept (x : Except Fault α) : Action σ α := fun s => (x, s)

/-- An answer about the state. -/
def ask (f : σ → Except Fault α) : Action σ α := fun s => (f s, s)

/-- A change that may fail, and then changes nothing. -/
def change (f : σ → Except Fault σ) : Action σ Unit := fun s =>
  match f s with
  | .ok s' => (.ok (), s')
  | .error e => (.error e, s)

/-- A step from the state to an answer and the next state. -/
def ofStep (f : σ → Except Fault α × σ) : Action σ α := f

/-- An action on a part of the state. -/
def zoom (get : τ → σ) (set : σ → τ → τ) (act : Action σ α) : Action τ α := fun t =>
  let (answer, s) := act (get t)
  (answer, set s t)

/-- Fail unless a condition holds. -/
def need (holds : Bool) (fault : Fault) : Action σ Unit := ofExcept (require holds fault)

/-! ## What an action does to a state -/

@[simp] theorem apply_pure (a : α) (s : σ) : (pure a : Action σ α) s = (.ok a, s) := rfl

@[simp] theorem apply_throw (e : Fault) (s : σ) : (throw e : Action σ α) s = (.error e, s) := rfl

theorem apply_bind (x : Action σ α) (f : α → Action σ β) (s : σ) :
    (x >>= f : Action σ β) s =
      match x s with
      | (.ok a, s') => f a s'
      | (.error e, s') => (.error e, s') := by
  show (match x s with | (a, s') => ExceptT.bindCont f a s') = _
  rcases x s with ⟨_ | _, _⟩ <;> rfl

theorem apply_bind_of_ok {x : Action σ α} {s s' : σ} {a : α} (h : x s = (.ok a, s'))
    (f : α → Action σ β) : (x >>= f : Action σ β) s = f a s' := by
  rw [apply_bind, h]

theorem apply_bind_of_error {x : Action σ α} {s s' : σ} {e : Fault} (h : x s = (.error e, s'))
    (f : α → Action σ β) : (x >>= f : Action σ β) s = (.error e, s') := by
  rw [apply_bind, h]

theorem apply_modify (f : σ → σ) (s : σ) : (modify f : Action σ PUnit) s = (.ok ⟨⟩, f s) := rfl

theorem apply_get (s : σ) : (get : Action σ σ) s = (.ok s, s) := rfl

end Action

end AbstractMachine
