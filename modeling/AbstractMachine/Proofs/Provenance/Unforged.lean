/-
# AbstractMachine.Proofs.Provenance.Unforged — provenance cannot be forged

A program whose constants carry no provenance can only come by a name if it was handed out: as the
provenance of a pointer to a local or to the heap. Pointers to functions have none. Whatever the
program does with the bytes of a pointer, and whatever a predictor answers, no name turns up that is
not the name of memory for the stack or the heap, and no access is ever made through a name that
names nothing.

To turn an address into a pointer with provenance, that provenance has to have been exposed. It was
exposed in an earlier step, which had a pointer that carried it (`Exposes`), and it stays so.
-/
import AbstractMachine.Proofs.Machine.Exposure
import AbstractMachine.Proofs.Machine.Ownership

namespace AbstractMachine

/-- The part of the language in which constants carry no provenance. -/
def Fragment.unforged : Fragment where
  value e := ∀ v ty, e = .constant v ty → ∀ id, ¬v.Carries id

namespace Machine

variable {program : Program} {target : Target} {chooser : Chooser} {predictor : Predictor}
  {m m' : Machine} {id : AllocId}

theorem quiet_boot : Quiet id boot := by
  have placed (names : List String) : Quiet id (placeFunctions names) := by
    induction names with
    | nil => exact .pure
    | cons name rest ih =>
        exact .bindQuiet .allocate fun p => .bindQuiet (.modify fun _ => rfl) fun _ => ih
  refine .bindQuiet .get fun m => .bindQuiet (placed _) fun _ => .bindQuiet .ofExcept fun f => ?_
  exact .bindQuiet (quiet_newFrame _) fun f => .bindQuiet (quiet_beginLocal f _) fun _ =>
    .modify fun _ => rfl

/-- What is exposed was exposed by a step on the way, and has stayed so since. -/
theorem Reachable.exists_exposes (h : Reachable program target chooser predictor m)
    (exposed : id ∈ m.store.casts.exposed) :
    ∃ m₁ m₂, Reachable program target chooser predictor m₁ ∧ m₁.Exposes id ∧
      step m₁ = (.ok (), m₂) ∧ Relation.ReflTransGen (fun m m' => step m = (.ok (), m')) m₂ m := by
  obtain ⟨m₀, begun, steps⟩ := h
  induction steps with
  | refl =>
      have fresh := (quiet_boot begun exposed).resolve_right not_false
      cases fresh
  | @tail m m' before step ih =>
      rcases exposes_of_step step exposed with old | new
      · obtain ⟨m₁, m₂, reachable, exposes, done, after⟩ := ih old
        exact ⟨m₁, m₂, reachable, exposes, done, after.tail step⟩
      · exact ⟨m, m', ⟨m₀, begun, before⟩, new, step, .refl⟩

/-- The last answer that was asked for was this fault: the chooser's, or the predictor's, all of whose
tests succeed on what it may choose from. -/
def Answered (m : Machine) (f : Fault) : Prop :=
  (∃ c asked, m.store.memory.asked = c :: asked ∧ m.store.memory.chooser asked c = .error f) ∨
    ∃ q asked, m.store.casts.asked = q :: asked ∧ m.store.casts.predictor asked q = .error f ∧
      ∀ id ∈ q.exposed, (∃ b, q.fits id = .ok b) ∧ ∀ test ∈ q.contains, ∃ b, test id = .ok b

/-- A machine never speaks of memory that is not there, unless it was told to. -/
theorem Failed.answered (h : Failed True m (.defect (.notAnAllocation id)) m') :
    m'.Answered (.defect (.notAnAllocation id)) := by
  cases h.cause with
  | refused h =>
      rcases h with ordinary | ⟨other, owned, missing⟩
      · exact ordinary.elim
      · obtain ⟨a, found, -⟩ := owned trivial
        rw [found] at missing
        cases missing
  | chooser last answer => exact .inl ⟨_, _, last, answer⟩
  | predictor last answer =>
      -- What the query tests is which allocations cover the address.
      refine .inr ⟨_, _, last, answer, fun id exposed => ?_⟩
      obtain ⟨a, found, -⟩ := h.named trivial id (.exposed exposed)
      refine ⟨Memory.exists_covers found _ true, ?_⟩
      rintro _ ⟨⟩
      exact Memory.exists_covers found _ false
  | ends h => exact h.elim

/-- Provenance cannot be forged: all names that a machine holds are those of memory that was made for
the stack or the heap; what is exposed was exposed by a step that had such a pointer, and stays so;
no access speaks of memory that is not there; and an address becomes a pointer with exposed
provenance only. -/
theorem unforged_of_reachable (constants : program.In .unforged)
    (h : Reachable program target chooser predictor m) :
    (∀ id, m.Holds id → ∃ a, m.store.memory.allocation id = .ok a ∧ a.id = id ∧
      (a.kind = .stack ∨ a.kind = .heap)) ∧
    (∀ id ∈ m.store.casts.exposed, ∃ m₁ m₂, Reachable program target chooser predictor m₁ ∧
      m₁.Exposes id ∧ step m₁ = (.ok (), m₂) ∧
      Relation.ReflTransGen (fun m m' => step m = (.ok (), m')) m₂ m) ∧
    (∀ answer m', step m = (answer, m') → ∀ id ∈ m.store.casts.exposed,
      id ∈ m'.store.casts.exposed) ∧
    (∀ id m', step m = (.error (.defect (.notAnAllocation id)), m') →
      m'.Answered (.defect (.notAnAllocation id))) ∧
    (∀ addr p n n', fromAddr addr n = (.ok p, n') →
      ∀ id, p.provenance = some id → id ∈ n.store.casts.exposed) := by
  have nameless : ∀ v ty, Fragment.unforged.value (.constant v ty) → True → ∀ id, ¬v.Carries id :=
    fun v ty h _ => h v ty rfl
  obtain ⟨code, sound⟩ := h.sound constants nameless
  have step_ok {u m'} (run : step m = (.ok u, m')) :
      Sound True .unforged m m'.stack _ m' := (steps_step nameless code).ok sound run
  have step_error {f m'} (run : step m = (.error f, m')) : Failed True m f m' :=
    (steps_step nameless code).error sound run
  refine ⟨fun id holds => ?_, fun id exposed => h.exists_exposes exposed, ?_, ?_, ?_⟩
  · obtain ⟨a, found, kind⟩ := sound.named trivial id (.inl holds)
    exact ⟨a, found, sound.housed.numbered.id_eq found, kind⟩
  · rintro (f | u) m' run id exposed
    · exact (step_error run).exposed id exposed
    · exact (step_ok run).exposed id exposed
  · exact fun id m' run => (step_error run).answered
  · intro addr p n n' run
    exact (castAnswer_eq_ok (fromAddr_eq_ok run).1).2.1

/-- A program that exposes the address of a local. -/
def exposeLocal : Program where
  functions := ⟨[("main",
    { locals := ⟨[("x", ⟨.int ⟨false, 1⟩, 1⟩), ("ret", ⟨.tuple [] 0, 1⟩)]⟩
      params := []
      result := "ret"
      resultAbi := { size := 0, align := 1 }
      start := "start"
      blocks := ⟨[("start", ⟨[.live "x", .assign (.var "x") (.unary (.cast ⟨false, 1⟩)
        (.unary .expose (.addrOf (.var "x") (.ptr .raw))))], .ret⟩)]⟩ })]⟩

/-- The name of the local, which comes after those of the function and of the result, is exposed by
the second step, and it is that of memory for the stack. -/
theorem unforged_exposeLocal :
    exposeLocal.In .unforged ∧ (afterSteps exposeLocal 2).store.casts.exposed = [⟨2⟩] ∧
      (∃ a, (afterSteps exposeLocal 2).store.memory.allocation ⟨2⟩ = .ok a ∧
        (a.kind = .stack ∨ a.kind = .heap)) ∧
      ∃ m : Machine, m.Exposes ⟨2⟩ := by
  have noConstants : exposeLocal.In .unforged := by
    intro e he b hb
    obtain rfl := List.mem_singleton.1 he
    obtain rfl := List.mem_singleton.1 hb
    refine ⟨fun s hs => ?_, trivial⟩
    rcases List.mem_pair.1 hs with rfl | rfl
    · trivial
    · exact ⟨trivial, nofun, nofun, nofun, trivial⟩
  have reached : Reachable exposeLocal ⟨8, .little⟩ inTurn .standard (afterSteps exposeLocal 2) :=
    .next (.next (.begun rfl) rfl) rfl
  have exposed : (afterSteps exposeLocal 2).store.casts.exposed = [⟨2⟩] := rfl
  have among : ⟨2⟩ ∈ (afterSteps exposeLocal 2).store.casts.exposed :=
    exposed ▸ List.mem_singleton_self _
  obtain ⟨owned, exposes, -⟩ := unforged_of_reachable noConstants reached
  obtain ⟨a, found, -, kind⟩ := owned _ (.exposed among)
  obtain ⟨m, -, -, casts, -⟩ := exposes _ among
  exact ⟨noConstants, exposed, ⟨a, found, kind⟩, m, casts⟩

end Machine

end AbstractMachine
