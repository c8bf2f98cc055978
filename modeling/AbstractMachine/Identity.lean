/-
# AbstractMachine.Identity — who an allocation is

An allocation is named by an identity that is handed out once and never again: freeing memory does
not free its name. That is what keeps a use after free visible, whatever later comes to lie at the
same address. A pointer carries such a name as its *provenance*, or carries none.
-/

namespace AbstractMachine

/-- The name of an allocation. The allocator hands out `0, 1, 2, …`; a name that a program makes up
may be any integer, and then names nothing. -/
structure AllocId where
  index : Int
  deriving DecidableEq

/-- What an allocation was made for. Memory has to be given back the way it was taken. -/
inductive AllocKind where
  | stack
  | heap
  | function
  deriving DecidableEq

/-- An address, and the right to use the memory of one allocation, or of none. A pointer owns
nothing: the allocation may be long dead, and the address anywhere. -/
structure Pointer where
  addr : Int
  provenance : Option AllocId
  deriving DecidableEq

/-- The definedness order on provenance: none is below every name, and a name only below itself. -/
def provenanceLe (p q : Option AllocId) : Bool :=
  p == none || p == q

@[simp] theorem provenanceLe_none (q : Option AllocId) : provenanceLe none q = true := rfl

@[simp] theorem provenanceLe_refl (p : Option AllocId) : provenanceLe p p = true := by
  simp [provenanceLe]

theorem provenanceLe_iff {p q : Option AllocId} :
    provenanceLe p q = true ↔ p = none ∨ p = q := by
  simp [provenanceLe]

end AbstractMachine
