/-
# AbstractMachine.Choice.Provenance — which provenance a cast recovers

An integer that becomes a pointer may recover a provenance that was exposed before, or none. Which
one is the program's good luck: a *predictor* picks whatever makes the rest of the program defined.
As with choosers, nothing is assumed of a predictor but that its answer depends on what it was
asked; that it answers with something exposed is checked by whoever asks.

The standard predictor takes the exposed allocation that contains the address; if there is none,
the one with the least number that the address is still useful for; and otherwise nothing.
-/
import AbstractMachine.Fault

namespace AbstractMachine

/-- A question to a predictor. -/
structure CastQuery where
  addr : Int
  exposed : List AllocId
  /-- The provenances that the pointer may usefully carry. -/
  fits : AllocId → Except Fault Bool
  /-- The preferred ones among them, if any are. -/
  contains : Option (AllocId → Except Fault Bool)

/-- A provenance for a cast, given all earlier questions, the last one first. -/
abbrev Predictor := List CastQuery → CastQuery → Except Fault (Option AllocId)

/-- The first element that passes a test. -/
def firstOk {α : Type} (test : α → Except Fault Bool) : List α → Except Fault (Option α)
  | [] => .ok none
  | x :: xs =>
      match test x with
      | .error f => .error f
      | .ok true => .ok (some x)
      | .ok false => firstOk test xs

/-- Identities in increasing order. -/
def AllocId.sorted (ids : List AllocId) : List AllocId :=
  ids.mergeSort fun a b => a.index ≤ b.index

namespace Predictor

/-- The least exposed provenance that contains the address, else the least that fits. -/
def standard : Predictor := fun _ q => do
  let candidates := AllocId.sorted q.exposed
  match ← q.contains.elim (.ok none) (firstOk · candidates) with
  | some id => return some id
  | none => firstOk q.fits candidates

/-- Answers given in advance, and none after the last one. -/
def scripted (answers : List (Option AllocId)) : Predictor := fun asked _ =>
  .ok (answers[asked.length]?.getD none)

end Predictor

end AbstractMachine
