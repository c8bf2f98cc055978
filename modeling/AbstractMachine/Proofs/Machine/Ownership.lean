/-
# AbstractMachine.Proofs.Machine.Ownership — locals own the memory for the stack

A machine is `Reachable` if it was begun and took any number of steps, whatever program it runs,
wherever its memory was placed and whatever its casts recovered. Every reachable machine is sound, by
induction on its steps, and so its locals are housed.

What follows is that nobody can take the memory of a local away. A program that frees the memory of
another program's local, or its own, is stopped, because that memory is not the heap's. So the clean-up
of a return and the end of a local's life always find what they are to free (`exists_freeLocals`,
`exists_storageDead`), and when the outermost frame has returned no memory for the stack is left.
-/
import Mathlib.Logic.Relation
import AbstractMachine.Proofs.Machine.Steps

namespace AbstractMachine

namespace Machine

variable {program : Program} {target : Target} {chooser : Chooser} {predictor : Predictor}
  {m m' n n' : Machine} {strict : Prop} {L : Fragment} {frames : List Frame}
  {hand : AllocId → Prop}

/-! ## Reachable machines -/

/-- A machine that was begun and took steps. -/
def Reachable (program : Program) (target : Target) (chooser : Chooser) (predictor : Predictor)
    (m : Machine) : Prop :=
  ∃ m₀, boot (fresh program target chooser predictor) = (.ok (), m₀) ∧
    Relation.ReflTransGen (fun m m' => step m = (.ok (), m')) m₀ m

theorem Reachable.begun (h : (boot (fresh program target chooser predictor)).1 = .ok ()) :
    Reachable program target chooser predictor (boot (fresh program target chooser predictor)).2 :=
  ⟨_, Prod.ext h rfl, .refl⟩

theorem Reachable.next (h : Reachable program target chooser predictor m)
    (run : (step m).1 = .ok ()) : Reachable program target chooser predictor (step m).2 := by
  obtain ⟨m₀, begun, steps⟩ := h
  exact ⟨m₀, begun, steps.tail (Prod.ext run rfl)⟩

/-- Allocations are put one behind the other, as far as they are small. -/
def inTurn : Chooser := fun asked _ => .ok (asked.length + 1)

/-- The machine that runs a program, after so many steps. -/
def afterSteps (program : Program) : Nat → Machine
  | 0 => (boot (fresh program ⟨8, .little⟩ inTurn .standard)).2
  | n + 1 => (step (afterSteps program n)).2

/-- A sound machine is sound from now on. -/
theorem Sound.rebase {m₀ : Machine} (h : Sound strict L m₀ frames hand m) :
    Sound strict L m frames hand m :=
  { h with
    program := rfl
    exposed := fun _ h => h }

theorem sound_fresh : Sound strict L (fresh program target chooser predictor) [] (fun _ => False)
    (fresh program target chooser predictor) where
  program := rfl
  code f h := absurd h List.not_mem_nil
  housed := .nil (fun k a h => by simp [fresh] at h) fun a h => absurd h List.not_mem_nil
  named s id held := by
    rcases held with held | no
    · cases held with
      | byte h =>
          obtain ⟨a, ha, -⟩ := h
          cases ha
      | exposed h => cases h
      | frame hf _ => cases hf
    · exact no.elim
  exposed _ h := h

/-- Every reachable machine is sound. -/
theorem Reachable.sound (code : program.In L)
    (constants : ∀ v ty, L.value (.constant v ty) → strict → ∀ id, ¬v.Carries id)
    (h : Reachable program target chooser predictor m) :
    m.program.In L ∧ Sound strict L m m.stack (fun _ => False) m := by
  obtain ⟨m₀, begun, steps⟩ := h
  induction steps with
  | refl =>
      have sound : Sound strict L _ m₀.stack _ m₀ := (steps_boot code).ok sound_fresh begun
      have program : m₀.program = program := sound.program
      exact ⟨program ▸ code, (sound.mono fun _ => False.elim).rebase⟩
  | @tail m m' _ step ih =>
      obtain ⟨code, sound⟩ := ih
      have sound : Sound strict L m m'.stack _ m' := (steps_step constants code).ok sound step
      exact ⟨sound.program ▸ code, (sound.mono fun _ => False.elim).rebase⟩

theorem Reachable.housed (h : Reachable program target chooser predictor m) :
    Housed m.stack m.store.memory := by
  have sound : Sound False .full m m.stack (fun _ => False) m :=
    (h.sound program.in_full fun _ _ _ => False.elim).2
  exact sound.housed

theorem Reachable.numbered (h : Reachable program target chooser predictor m) :
    m.store.memory.Numbered :=
  h.housed.numbered

/-! ## Returns -/

/-- A return that fails before its clean-up does not end the run by that. -/
theorem fails_handOver : Action.Fails (fun f => ¬f.Ends) handOver := by
  refine .bind (fun m m' f run => ?_) fun g => ?_
  · obtain ⟨-, -, rfl⟩ := popFrame_eq_error run
    exact not_false
  cases g.locals.find? g.function.result with
  | none => exact .throw not_false
  | some p =>
      refine .bind (.ofExcept (g.failsIn_localTy _)) fun place => ?_
      refine .bind fails_typedLoad fun v => .bind ?_ fun _ => .pure
      cases g.result with
      | none => exact .pure
      | some r => exact fails_typedStore

/-- When a return ends the run nothing lives on the stack any more. -/
theorem Sound.not_stack_of_execReturn {m₀ : Machine} (h : Sound strict L m₀ m.stack hand m)
    (run : execReturn m = (.error .terminated, m')) :
    ∀ a ∈ m'.store.memory.allocations, a.live = true → a.kind ≠ .stack := by
  simp only [execReturn_eq, Action.bind_eq_error_iff] at run
  obtain failed | ⟨f, n, handed, run⟩ := run
  · exact absurd trivial (fails_handOver failed)
  have sound : Sound strict L m₀ (f :: n.stack) _ n := moves_handOver.ok h handed
  obtain ⟨mem, journal, freed, sound⟩ := sound.exists_freeLocals
  obtain failed | ⟨_, n', done, run⟩ := run
  · obtain ⟨⟨⟩, -⟩ := Prod.mk.inj (freed.symm.trans failed)
  obtain ⟨-, rfl⟩ := Prod.mk.inj (freed.symm.trans done)
  obtain failed | ⟨_, n', noted, run⟩ := run
  · cases failed
  cases noted
  obtain ⟨rfl, ⟨none, -⟩ | ⟨⟨⟩⟩⟩ := resume_eq_error run
  have none : n.stack = [] := none
  rw [none] at sound
  exact sound.housed.not_stack_of_nil

/-- Locals own the memory for the stack: in every reachable machine each of them has memory of its
own, and there is no other. So a local that is live can always be ended, the clean-up of a return
always succeeds, and once the outermost return has ended the run no memory for the stack is live. -/
theorem housed_of_reachable (h : Reachable program target chooser predictor m) :
    Housed m.stack m.store.memory ∧
    (∀ f name block slot p, m.Executes f name block →
      block.statements[f.index]? = some (.dead slot) → f.locals.find? slot = some p →
      ∃ m', step m = (.ok (), m')) ∧
    (∀ f name g n, handOver (m.begun f name) = (.ok g, n) →
      ∃ n', freeLocals g g.locals.entries n = (.ok (), n')) ∧
    (∀ f name block m', m.Executes f name block → block.statements[f.index]? = none →
      block.terminator = .ret → step m = (.error .terminated, m') →
      ∀ a ∈ m'.store.memory.allocations, a.live = true → a.kind ≠ .stack) := by
  have sound : Sound False .full m m.stack (fun _ => False) m :=
    (h.sound program.in_full fun _ _ _ => False.elim).2
  have begun (f : Frame) (name : String) :
      Sound False .full m (m.begun f name).stack (fun _ => False) (m.begun f name) :=
    sound.congr rfl rfl rfl
  refine ⟨sound.housed, ?_, ?_, ?_⟩
  · intro f name block slot p executes next found
    obtain ⟨rest, stack⟩ := executes.top
    obtain ⟨n, ended, -⟩ := (begun f name).exists_storageDead stack found
    rw [step_of_executes executes, instruction, next]
    exact ⟨_, Action.apply_bind_of_ok ended _⟩
  · intro f name g n handed
    have sound : Sound False .full m (g :: n.stack) _ n :=
      moves_handOver.ok (s := m.begun f name) (begun f name) handed
    obtain ⟨mem, journal, freed, -⟩ := sound.exists_freeLocals
    exact ⟨_, freed⟩
  · intro f name block m' executes last ret run
    rw [step_of_executes executes, instruction, last, ret] at run
    exact (begun f name).not_stack_of_execReturn run

/-- A block in which a local lives for the time of a step. -/
def oneLocalBlock : Block := ⟨[.live "x", .dead "x"], .ret⟩

/-- The function that is this block. -/
def oneLocalMain : Function where
  locals := ⟨[("x", ⟨.int ⟨false, 1⟩, 1⟩), ("ret", ⟨.tuple [] 0, 1⟩)]⟩
  params := []
  result := "ret"
  resultAbi := { size := 0, align := 1 }
  start := "start"
  blocks := ⟨[("start", oneLocalBlock)]⟩

/-- The program that is this function. -/
def oneLocal : Program where
  functions := ⟨[("main", oneLocalMain)]⟩

/-- The frame of its execution. -/
def oneLocalFrame (index : Nat) (locals : List (String × Pointer)) : Frame where
  name := "main"
  function := oneLocalMain
  block := some "start"
  index
  locals := ⟨locals⟩

/-- While the local lives it has memory, and it can be ended; after the run no memory is left. -/
theorem housed_oneLocal :
    Housed (afterSteps oneLocal 1).stack (afterSteps oneLocal 1).store.memory ∧
      (∃ m, step (afterSteps oneLocal 1) = (.ok (), m)) ∧
      (step (afterSteps oneLocal 2)).1 = .error .terminated ∧
      ∀ a ∈ (afterSteps oneLocal 3).store.memory.allocations, a.live = true → a.kind ≠ .stack := by
  have first : Reachable oneLocal ⟨8, .little⟩ inTurn .standard (afterSteps oneLocal 1) :=
    .next (.begun rfl) rfl
  have second : Reachable oneLocal ⟨8, .little⟩ inTurn .standard (afterSteps oneLocal 2) :=
    first.next rfl
  have living : (afterSteps oneLocal 1).Executes
      (oneLocalFrame 1 [("ret", ⟨2, some ⟨1⟩⟩), ("x", ⟨3, some ⟨2⟩⟩)]) "start" oneLocalBlock :=
    ⟨rfl, ⟨[], rfl⟩, rfl⟩
  have returning : (afterSteps oneLocal 2).Executes
      (oneLocalFrame 2 [("ret", ⟨2, some ⟨1⟩⟩)]) "start" oneLocalBlock :=
    ⟨rfl, ⟨[], rfl⟩, rfl⟩
  have finished : (step (afterSteps oneLocal 2)).1 = .error .terminated := rfl
  have last : step (afterSteps oneLocal 2) = (.error .terminated, afterSteps oneLocal 3) :=
    Prod.ext finished rfl
  obtain ⟨housed, dead, -, -⟩ := housed_of_reachable first
  obtain ⟨-, -, -, ends⟩ := housed_of_reachable second
  refine ⟨housed, ?_, finished, ?_⟩
  · exact dead _ _ _ "x" _ living rfl rfl
  · exact ends _ _ _ _ returning rfl rfl last

end Machine

end AbstractMachine
