/-
# AbstractMachine.Casts — pointers as integers, and back

Turning a pointer into an integer *exposes* its provenance. Turning an integer into a pointer may
recover a provenance that has been exposed, and nothing else; which one, a predictor decides. What
is exposed stays exposed.
-/
import AbstractMachine.Choice.Provenance

namespace AbstractMachine

/-- What has been exposed, in the order it was, and the predictor of casts. -/
structure Casts where
  predictor : Predictor := .standard
  exposed : List AllocId := []
  /-- What the predictor was asked, the last question first. -/
  asked : List CastQuery := []

namespace Casts

/-- The provenance of a pointer that has not been exposed yet, if it has one. -/
def unexposed? (c : Casts) (p : Pointer) : Option AllocId :=
  p.provenance.filter fun id => !c.exposed.contains id

/-- Expose the provenance of a pointer. -/
def expose (c : Casts) (p : Pointer) : Casts :=
  match c.unexposed? p with
  | none => c
  | some id => { c with exposed := c.exposed ++ [id] }

/-- A pointer to an address, with a provenance that the predictor picks among those exposed. -/
def fromAddr (c : Casts) (addr : Int) (fits : AllocId → Except Fault Bool)
    (contains : Option (AllocId → Except Fault Bool)) : Except Fault Pointer × Casts :=
  let query : CastQuery := { addr, exposed := c.exposed, fits, contains }
  let answer := do
    let provenance ← c.predictor c.asked query
    match provenance with
    | none => return { addr, provenance := none }
    | some id => do
        require (c.exposed.contains id) (.defect (.neverExposed id))
        return { addr, provenance }
  (answer, { c with asked := query :: c.asked })

/-- Forget all that was exposed. -/
def reset (c : Casts) : Casts := { c with exposed := [] }

theorem mem_exposed_expose {c : Casts} {p : Pointer} {id : AllocId} :
    id ∈ (c.expose p).exposed ↔ id ∈ c.exposed ∨ p.provenance = some id := by
  unfold expose unexposed?
  rcases hp : p.provenance with _ | q
  · simp
  · by_cases hq : q ∈ c.exposed
    · have hf : (some q).filter (fun i => !c.exposed.contains i) = none := by simp [hq]
      rw [hf]
      exact ⟨Or.inl, fun h => h.elim (fun e => e) (fun e => Option.some.inj e ▸ hq)⟩
    · have hf : (some q).filter (fun i => !c.exposed.contains i) = some q := by simp [hq]
      rw [hf]
      simp [eq_comm]

end Casts

end AbstractMachine
