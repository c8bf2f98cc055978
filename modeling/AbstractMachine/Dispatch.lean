/-
# AbstractMachine.Dispatch — tables of handlers

A dispatch table finds the handler for a node by the node's key, which has to be a value without
parts; a truth value is the same key as the number that it counts as. A key has at most one handler:
registering a second one is a defect, and so is looking for a handler that nobody registered. Of
several keys registered at once, those before the first that was refused stay registered.
-/
import AbstractMachine.Action
import AbstractMachine.Datum
import AbstractMachine.Table

namespace AbstractMachine

/-- Handlers by key, and what the nodes are called. Each handler stands with the key under which it
was registered. -/
structure DispatchTable (η : Type) where
  name : String
  handlers : Table Scalar (Scalar × η) := {}

namespace DispatchTable

variable {η : Type}

/-- The handler that a key has, if it has one. -/
def handler? (t : DispatchTable η) (key : Scalar) : Option η :=
  (t.handlers.find? key.identity).map (·.2)

/-- Whether a key has a handler. -/
def hasHandler (t : DispatchTable η) (key : Datum) : Except Fault Bool := do
  return (t.handler? (← key.atom)).isSome

/-- The handler for a key. -/
def find (t : DispatchTable η) (key : Datum) : Except Fault η := do
  match t.handler? (← key.atom) with
  | some h => return h
  | none => throw (.defect (.noHandler t.name key.shown))

/-- A table with a handler more. -/
def add (t : DispatchTable η) (key : Datum) (h : η) : Except Fault (DispatchTable η) := do
  let k ← key.atom
  require (t.handler? k).isNone (.defect (.duplicateHandler t.name key.shown))
  return { t with handlers := t.handlers.insert k.identity (k, h) }

/-- Register a handler for several keys, first to last. -/
def registerAll (h : η) : List Datum → Action (DispatchTable η) Unit
  | [] => pure ()
  | key :: keys => do
      Action.change fun t => t.add key h
      registerAll h keys

/-- The order of keys. Texts have an order, and so have numbers; a text and a number have none. -/
def keyLe : Scalar → Scalar → Option Bool
  | .text s, .text t => some (s ≤ t)
  | k, l => return (← k.number?) ≤ (← l.number?)

/-- The keys in order, which they must have. -/
def sortedKeys (t : DispatchTable η) : Except Fault (List Scalar) :=
  let keys := t.handlers.entries.map (·.2.1)
  if keys.length ≤ 1 || keys.all (fun k => keys.all fun l => (keyLe k l).isSome) then
    .ok (keys.mergeSort fun k l => (keyLe k l).getD true)
  else .error (.setting .wrongType)

/-- A table: `Dispatcher('name', 2 handlers)`. -/
def text (t : DispatchTable η) : String :=
  "Dispatcher(" ++ Text.quoted t.name ++ ", " ++ toString t.handlers.size ++ " handlers)"

theorem find_eq_ok_iff {t : DispatchTable η} {key : Scalar} {h : η} :
    t.find (.scalar key) = .ok h ↔ t.handler? key = some h := by
  simp only [find, Datum.atom, bind, Except.bind]
  split <;> simp_all [pure, Except.pure, throw, throwThe, MonadExceptOf.throw]

end DispatchTable

end AbstractMachine
