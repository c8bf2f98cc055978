/-
# AbstractMachine.Proofs.Machine.Invariant — what every step keeps

A machine that was begun properly is `Sound` ever after: the locals of its frames own the memory for
the stack, and, if the constants of the program carry no provenance, every name that occurs in it is
that of memory that was made for the stack or the heap. What was exposed stays so.

In the middle of a step there is more than the machine: a frame beside the stack, during a call and
during a return, and values that were computed and not stored yet. So soundness is stated for a list
of frames and a set of names in hand. Expressions are dealt with once and for all by what evaluating
them leaves alone (`Sound.of_evolved`); what is left is what statements and terminators do to
frames and to the memory of locals.

The rule about names is an option (`strict`): without it the invariant asks nothing of programs.
-/
import AbstractMachine.Proofs.Machine.Evaluation
import AbstractMachine.Proofs.Machine.Locals

namespace AbstractMachine

/-! ## Memory that a program may name -/

/-- An identity names memory that was made for the stack or the heap. -/
def Memory.Owned (m : Memory) (id : AllocId) : Prop :=
  ∃ a, m.allocation id = .ok a ∧ (a.kind = .stack ∨ a.kind = .heap)

namespace Memory

variable {m m' : Memory} {id : AllocId} {p : Pointer} {size align : Int} {kind : AllocKind}
  {a : Allocation}

theorem owned_iff_of_outline_eq (h : m'.outline = m.outline) : m'.Owned id ↔ m.Owned id := by
  have half {m m' : Memory} (h : m'.outline = m.outline) : m'.Owned id → m.Owned id := by
    rintro ⟨a', found, kind⟩
    obtain ⟨a, found, outline⟩ := exists_allocation_of_outline_eq h found
    obtain ⟨-, -, -, same, -⟩ := Allocation.outline_eq_iff.1 outline
    exact ⟨a, found, same ▸ kind⟩
  exact ⟨half h, half h.symm⟩

theorem Made.owned (made : m.Made size align kind p m' a) (h : m.Owned id) : m'.Owned id := by
  obtain ⟨b, found, kind⟩ := h
  exact ⟨b, made.allocation found, kind⟩

theorem Made.owned_new (made : m.Made size align kind p m' a) (h : kind = .stack ∨ kind = .heap) :
    m'.Owned a.id :=
  ⟨a, made.allocation_new, made.kind ▸ h⟩

theorem Made.holds (made : m.Made size align kind p m' a) (h : m'.Holds id) : m.Holds id := by
  obtain ⟨b, hb, carry⟩ := h
  rw [made.allocations] at hb
  rcases List.mem_append.1 hb with old | new
  · exact ⟨b, old, carry⟩
  · rw [List.mem_singleton.1 new, made.contents] at carry
    exact absurd carry (not_carry_blank size)

/-- Freeing memory keeps its name. -/
theorem owned_modify_live {b : Allocation} {other : AllocId} (found : m.allocation other = .ok b)
    (h : m.Owned id) : (m.modify other fun a => { a with live := false }).Owned id := by
  obtain ⟨a, named, kind⟩ := h
  by_cases same : id = other
  · subst same
    obtain ⟨k, rfl, ha⟩ := exists_getElem?_of_allocation named
    refine ⟨{ a with live := false }, allocation_natCast.2 ?_, kind⟩
    rw [allocations_modify, if_pos (by simp), ha, Option.map_some]
  · exact ⟨a, allocation_modify_of_ne found same named, kind⟩

theorem holds_modify_live {other : AllocId}
    (h : (m.modify other fun a => { a with live := false }).Holds id) : m.Holds id := by
  refine (holds_of_modify (P := False) ?_ h).resolve_right not_false
  exact fun a carry => .inl carry

end Memory

namespace Machine

/-! ## The invariant -/

/-- What is kept of a machine, with frames that may stand beside its stack and with names in hand,
since an earlier time. -/
structure Sound (strict : Prop) (L : Fragment) (m₀ : Machine) (frames : List Frame)
    (hand : AllocId → Prop) (m : Machine) : Prop where
  program : m.program = m₀.program
  code : ∀ f ∈ frames, f.function.In L
  housed : Housed frames m.store.memory
  named : strict → ∀ id, Held frames m.store id ∨ hand id → m.store.memory.Owned id
  exposed : ∀ id ∈ m₀.store.casts.exposed, id ∈ m.store.casts.exposed

/-- What is left of it by a fault, and the cause of the fault. -/
structure Failed (strict : Prop) (m₀ : Machine) (f : Fault) (m : Machine) : Prop where
  cause : m.Cause (fun id => strict → m.store.memory.Owned id) f
  named : strict → ∀ id, m.Holds id → m.store.memory.Owned id
  exposed : ∀ id ∈ m₀.store.casts.exposed, id ∈ m.store.casts.exposed

variable {strict : Prop} {L : Fragment} {m₀ m m' : Machine} {frames frames' beside : List Frame}
  {hand hand' : AllocId → Prop} {α β : Type} {p : Pointer}

namespace Sound

/-- What is in hand may be put down. -/
theorem mono (h : Sound strict L m₀ frames hand m) (sub : ∀ id, hand' id → hand id) :
    Sound strict L m₀ frames hand' m :=
  { h with named := fun s id held => h.named s id (held.imp_right (sub id)) }

/-- Nothing that has a name has come in hand. -/
theorem nameless (h : Sound strict L m₀ frames hand m) :
    Sound strict L m₀ frames (fun id => hand id ∨ False) m :=
  h.mono fun _ inHand => inHand.elim (fun h => h) False.elim

theorem failed (h : Sound strict L m₀ frames hand m) (inside : ∀ f ∈ m.stack, f ∈ frames)
    {f : Fault} (cause : m.Cause (fun id => strict → m.store.memory.Owned id) f) :
    Failed strict m₀ f m :=
  ⟨cause, fun s id holds => h.named s id (.inl (holds.mono inside)), h.exposed⟩

/-- Where no memory is made, the size or the alignment is to blame, or the chooser. -/
theorem failed_allocate (h : Sound strict L m₀ frames hand m)
    (inside : ∀ f ∈ m.stack, f ∈ frames) {size align : Int} {kind : AllocKind} {f : Fault}
    {mem : Memory} (refused : m.store.memory.allocate size align kind = (.error f, mem)) :
    Failed strict m₀ f (m.withMemory mem m.store.journal) := by
  obtain ⟨rfl, impossible⟩ | ⟨c, -, rfl, answer⟩ := Memory.allocate_eq_error refused
  · exact h.failed inside (.refused (.inl (Memory.failsIn_constraints _ _ _ f impossible)))
  · -- The question is all that is new, and names are not sought in questions.
    refine ⟨?_, fun s id holds => h.named s id (.inl ?_), h.exposed⟩
    · rcases answer with failed | ⟨addr, -, failed | ⟨-, rfl⟩⟩
      · exact .chooser rfl failed
      · exact .refused (.inl (Memory.failsIn_admits c addr f failed))
      · exact .refused (.inl trivial)
    · exact holds.imp (fun h => h) (fun h => h) fun g hg h => ⟨g, inside g hg, h⟩

/-- An evaluation keeps a machine sound, and what it yields may be taken in hand. -/
theorem of_evolved (h : Sound strict L m₀ frames hand m)
    (evolved : Evolved (fun id => strict → m.store.memory.Owned id) m m')
    (new : ∀ id, hand' id → strict → m.store.memory.Owned id) :
    Sound strict L m₀ frames (fun id => hand id ∨ hand' id) m' where
  program := by
    rw [← h.program]
    have same := congrArg Machine.program evolved.outline
    exact same
  code := h.code
  housed := h.housed.of_outline_eq evolved.memory
  named s id held := by
    rw [Memory.owned_iff_of_outline_eq evolved.memory]
    rcases held with held | old | yielded
    · cases held with
      | byte holds => exact evolved.within id (.byte holds) s
      | exposed holds => exact evolved.within id (.exposed holds) s
      | frame hf held => exact h.named s id (.inl (.frame hf held))
    · exact h.named s id (.inr old)
    · exact new id yielded s
  exposed id old := evolved.exposed id (h.exposed id old)

/-- Frames may be changed as long as they keep their functions and locals. What comes to wait for a
result has to be in hand. -/
theorem of_sameLocals (h : Sound strict L m₀ frames hand m)
    (same : List.Forall₂ Frame.SameLocals frames frames')
    (results : ∀ g ∈ frames', ∀ r, g.result = some r →
      (∃ f ∈ frames, f.result = some r) ∨ ∀ id, r.1.provenance = some id → hand id) :
    Sound strict L m₀ frames' hand m where
  program := h.program
  code g hg := by
    obtain ⟨f, hf, same⟩ := exists_of_forall₂ same hg
    exact same.function ▸ h.code f hf
  housed := h.housed.of_sameLocals same
  named s id held := by
    rcases held with held | yielded
    · cases held with
      | byte holds => exact h.named s id (.inl (.byte holds))
      | exposed holds => exact h.named s id (.inl (.exposed holds))
      | frame hg held =>
          cases held with
          | slot he named =>
              obtain ⟨f, hf, same⟩ := exists_of_forall₂ same hg
              exact h.named s id (.inl (.frame hf (.slot (same.locals ▸ he) named)))
          | result hr named =>
              rcases results _ hg _ hr with ⟨f, hf, hr⟩ | inHand
              · exact h.named s id (.inl (.frame hf (.result hr named)))
              · exact h.named s id (.inr (inHand id named))
    · exact h.named s id (.inr yielded)
  exposed := h.exposed

/-- Of a machine only the program, memory and what is exposed matter. -/
theorem congr (h : Sound strict L m₀ frames hand m) (program : m'.program = m.program)
    (memory : m'.store.memory = m.store.memory)
    (exposed : m'.store.casts.exposed = m.store.casts.exposed) :
    Sound strict L m₀ frames hand m' where
  program := program.trans h.program
  code := h.code
  housed := memory ▸ h.housed
  named s id held := by
    rw [memory]
    refine h.named s id (held.imp_left fun held => ?_)
    exact held.imp (fun h => memory ▸ h) (fun h => exposed ▸ h) fun f hf h => ⟨f, hf, h⟩
  exposed id old := exposed ▸ h.exposed id old

/-- What is in the frames may be taken in hand. -/
theorem take (h : Sound strict L m₀ frames hand m) :
    Sound strict L m₀ frames (fun id => hand id ∨ ∃ f ∈ frames, f.Holds id) m :=
  { h with
    named := fun s id held => by
      rcases held with held | old | ⟨f, hf, holds⟩
      · exact h.named s id (.inl held)
      · exact h.named s id (.inr old)
      · exact h.named s id (.inl (.frame hf holds)) }

/-- Memory for other things than the stack may be made. -/
theorem made (h : Sound strict L m₀ frames hand m) {size align : Int} {kind : AllocKind}
    {a : Allocation} {mem : Memory} {journal : Journal}
    (made : m.store.memory.Made size align kind p mem a) (other : kind ≠ .stack)
    (new : ∀ id, hand' id → hand id ∨ kind = .heap ∧ p.provenance = some id) :
    Sound strict L m₀ frames hand' (m.withMemory mem journal) where
  program := h.program
  code := h.code
  housed := h.housed.made_other made other
  named s id held := by
    rcases held with held | yielded
    · refine made.owned (h.named s id (.inl ?_))
      exact held.imp made.holds (fun h => h) fun f hf h => ⟨f, hf, h⟩
    · rcases new id yielded with old | ⟨heap, named⟩
      · exact made.owned (h.named s id (.inr old))
      · rw [made.base] at named
        obtain rfl := Option.some.inj named
        exact made.owned_new (.inr heap)
  exposed := h.exposed

/-- Memory for other things than the stack may be freed. -/
theorem freed (h : Sound strict L m₀ frames hand m) {a : Allocation} {journal : Journal}
    (found : m.store.memory.allocation a.id = .ok a) (kind : a.kind ≠ .stack) :
    Sound strict L m₀ frames hand (m.withMemory
      (m.store.memory.modify a.id fun a => { a with live := false }) journal) where
  program := h.program
  code := h.code
  housed := h.housed.free_other found kind
  named s id held := by
    refine Memory.owned_modify_live found (h.named s id (held.imp_left fun held => ?_))
    exact held.imp Memory.holds_modify_live (fun h => h) fun f hf h => ⟨f, hf, h⟩
  exposed := h.exposed

/-- A local of the first frame begins to live. -/
theorem begin {f : Frame} {name : String} {place : PlaceTy} {a : Allocation} {mem : Memory}
    {journal : Journal} (h : Sound strict L m₀ (f :: frames) hand m)
    (dead : f.locals.find? name = none) (declared : f.localTy name = .ok place)
    (made : m.store.memory.Made (place.byteSize m.store.memory.target) place.align .stack p mem a) :
    Sound strict L m₀ ({ f with locals := f.locals.insert name p } :: frames)
      (fun id => hand id ∨ p.provenance = some id) (m.withMemory mem journal) where
  program := h.program
  code := List.forall_mem_cons.2 (List.forall_mem_cons.1 h.code)
  housed := h.housed.begin dead declared made
  named s id held := by
    -- The only name that was not held before is that of the memory just made.
    have new : p.provenance = some id → mem.Owned id := by
      rw [made.base]
      intro named
      obtain rfl := Option.some.inj named
      exact made.owned_new (.inl rfl)
    have old (held : Held (f :: frames) m.store id) : mem.Owned id :=
      made.owned (h.named s id (.inl held))
    rcases held with held | yielded | yielded
    · cases held with
      | byte holds => exact old (.byte (made.holds holds))
      | exposed holds => exact old (.exposed holds)
      | frame hg held =>
          rcases List.mem_cons.1 hg with rfl | hg
          · cases held with
            | slot he named =>
                rcases Table.mem_insert_entries he with he | rfl
                · exact old (.frame List.mem_cons_self (.slot he named))
                · exact new named
            | result hr named => exact old (.frame List.mem_cons_self (.result hr named))
          · exact old (.frame (List.mem_cons_of_mem f hg) held)
    · exact made.owned (h.named s id (.inr yielded))
    · exact new yielded
  exposed := h.exposed

/-- A local of the first frame can be freed, and stops to live by it. -/
theorem exists_freeLocal {f : Frame} {name : String} (h : Sound strict L m₀ (f :: frames) hand m)
    (found : f.locals.find? name = some p) :
    ∃ mem journal, freeLocal f name p m = (.ok (), m.withMemory mem journal) ∧
      Sound strict L m₀ ({ f with locals := f.locals.erase name } :: frames) hand
        (m.withMemory mem journal) := by
  obtain ⟨place, a, house, freed⟩ := h.housed.exists_deallocate found
  obtain ⟨journal, run⟩ := freeLocal_of_ok house.declared freed
  refine ⟨_, journal, run, h.program, List.forall_mem_cons.2 (List.forall_mem_cons.1 h.code),
    h.housed.free found house, ?_, h.exposed⟩
  intro s id held
  refine Memory.owned_modify_live house.found (h.named s id (held.imp_left fun held => ?_))
  refine held.imp Memory.holds_modify_live (fun h => h) fun g hg held => ?_
  rcases List.mem_cons.1 hg with rfl | hg
  · refine ⟨f, List.mem_cons_self, ?_⟩
    cases held with
    | slot he named => exact .slot (List.mem_of_mem_filter he) named
    | result hr named => exact .result hr named
  · exact ⟨g, List.mem_cons_of_mem f hg, held⟩

/-- A frame in which nothing lives yet may be put in front. -/
theorem cons {f : Frame} (h : Sound strict L m₀ frames hand m) (empty : f.locals.entries = [])
    (none : f.result = none) (code : f.function.In L) :
    Sound strict L m₀ (f :: frames) hand m where
  program := h.program
  code := List.forall_mem_cons.2 ⟨code, h.code⟩
  housed := (Housed.cons_iff empty).2 h.housed
  named s id held := by
    refine h.named s id (held.imp_left fun held => ?_)
    refine held.imp (fun h => h) (fun h => h) fun g hg inside => ?_
    rcases List.mem_cons.1 hg with rfl | hg
    · cases inside with
      | slot he named => simp [empty] at he
      | result hr named => simp [none] at hr
    · exact ⟨g, hg, inside⟩
  exposed := h.exposed

/-- A frame in which nothing lives any more may be taken away. -/
theorem of_cons {f : Frame} (h : Sound strict L m₀ (f :: frames) hand m)
    (empty : f.locals.entries = []) : Sound strict L m₀ frames hand m where
  program := h.program
  code := (List.forall_mem_cons.1 h.code).2
  housed := (Housed.cons_iff empty).1 h.housed
  named s id held := h.named s id (held.imp_left fun held =>
    held.mono fun _ hg => List.mem_cons_of_mem f hg)
  exposed := h.exposed

/-- All locals of the first frame can be freed, one after the other. -/
theorem exists_freeLocals {f : Frame} :
    ∀ {entries : List (String × Pointer)} {m : Machine},
      Sound strict L m₀ ({ f with locals := ⟨entries⟩ } :: frames) hand m →
      ∃ mem journal, freeLocals f entries m = (.ok (), m.withMemory mem journal) ∧
        Sound strict L m₀ frames hand (m.withMemory mem journal)
  | [], m, h => ⟨m.store.memory, m.store.journal, rfl, h.of_cons rfl⟩
  | (name, p) :: rest, m, h => by
      -- No name stands twice in the table, so erasing the first one leaves the rest.
      have distinct := h.housed.tables _ List.mem_cons_self
      have found : (Table.mk ((name, p) :: rest)).find? name = some p :=
        Table.find?_of_mem_entries distinct List.mem_cons_self
      obtain ⟨mem, journal, run, sound⟩ := h.exists_freeLocal found
      simp only [Table.erase_cons distinct] at sound
      obtain ⟨mem', journal', run', sound⟩ := exists_freeLocals sound
      exact ⟨mem', journal', (Action.apply_bind_of_ok run _).trans run', sound⟩

end Sound

end Machine

end AbstractMachine
