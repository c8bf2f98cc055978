/-
# AbstractMachine.Machine.Exec — executing statements

An assignment evaluates its source first, then its destination, and then stores. Validating a place
loads its value, retags the pointers in it and stores it back, so that bytes without meaning are
lost.
-/
import AbstractMachine.Machine.Eval

namespace AbstractMachine

namespace Machine

/-- Write the tag of a variant through a pointer to its enum, one write after the other. -/
def storeTag (p : Pointer) (align : Int) : List TagWrite → Action Machine Unit
  | [] => pure ()
  | w :: ws => do
      let q ← offsetInBounds p w.offset
      onStore (Store.typedStore q (.int w.value)
        { ty := .int w.ty, align := restrictAlign align w.offset })
      storeTag p align ws

/-- Execute a statement. -/
def execute : Statement → Action Machine Unit
  | .assign destination source => do
      let (v, _) ← evalValue source
      let (p, place) ← evalPlace destination
      onStore (Store.typedStore p v place)
  | .finalize place => do
      let (p, place) ← evalPlace place
      let _ ← onStore (Store.typedLoad p place)
  | .live name => storageLive name
  | .dead name => storageDead name
  | .setDiscriminant place d => do
      let (p, ⟨ty, align⟩) ← evalPlace place
      match ty with
      | .enum e => do
          let variant ← Action.ofExcept (e.variantAt d)
          storeTag p align variant.tagger
      | ty => throw (.defect (.setDiscriminantOf ty))
  | .deinit place => do
      let (p, place) ← evalPlace place
      onStore (Store.deinit p place)
  | .validate place => do
      let (p, place) ← evalPlace place
      let v ← onStore (Store.typedLoad p place)
      let v ← onStore (Store.ask fun m => m.retagValue place.ty v)
      onStore (Store.typedStore p v place)
  | .mention place => do
      let _ ← evalPlace place

end Machine

end AbstractMachine
