/-
# AbstractMachine.Proofs.Machine.Passing — arguments on their way into parameters

While a call is made, the memory of the callee is not known to anybody but the call: all names that
the machine holds are those of the allocations that there were when the call began (`Confined`). An
argument that is evaluated can move a value out of memory, but not out of the memory of a parameter
that was passed before it. So what has been written to a parameter stays there until the frame is
entered, and this is what it means to come `Onward` in a call.

An argument is passed by evaluating it and writing the bytes of its value to new memory. Its type
has a sound layout, so the bytes are as many as there is room for, and they are all that is in that
memory afterwards.
-/
import AbstractMachine.Proofs.Machine.Brackets
import AbstractMachine.Proofs.Machine.Spared
import AbstractMachine.Proofs.Machine.Written
import AbstractMachine.Proofs.Provenance.Unforged
import AbstractMachine.Proofs.Representation.RoundTrip

namespace AbstractMachine

/-- A store over the whole of an allocation leaves in it what was stored, and nothing else. -/
theorem Memory.getElem?_of_store {m m' : Memory} {p : Pointer} {data : List AbsByte} {align : Int}
    {k : Nat} {a : Allocation} (numbered : m.Numbered) (h : m.store p data align = .ok m')
    (found : m.allocations[k]? = some a) (named : p.provenance = some ⟨k⟩)
    (start : p.addr = a.addr) (whole : data.length = a.contents.length) :
    m'.allocations[k]? = some { a with contents := data } := by
  by_cases nonempty : data = []
  · obtain ⟨-, ⟨-, rfl⟩ | ⟨filled, -⟩⟩ := store_eq_ok_iff.1 h
    · have none : a.contents = [] := List.length_eq_zero_iff.1 (by rw [← whole, nonempty]; rfl)
      rw [found, nonempty, ← none]
    · exact absurd nonempty filled
  · obtain ⟨l, b, named', found', -, changed, -⟩ := exists_of_store numbered h nonempty
    obtain rfl := number_unique named named'
    obtain rfl := Option.some.inj (found.symm.trans found')
    rw [changed, start, Int.sub_self, Slice.overlay_of_length_eq whole]

namespace Machine

variable {target : Target} {N : Nat} {m m' n : Machine} {f g g' : Frame} {p : Pointer} {v : Value}
  {ty : Ty} {name : String}

/-! ## In the middle of a call -/

/-- All names that a machine holds are those of its first so many allocations. -/
structure Confined (N : Nat) (m : Machine) : Prop where
  numbered : m.store.memory.Numbered
  within : ∀ id, m.Holds id → id.index < N

/-- To count a step changes no names. -/
theorem Confined.begun {block : String} (h : Confined N m) : Confined N (m.begun f block) :=
  ⟨h.numbered, fun id holds => h.within id
    (holds.imp (fun h => h) (fun h => h) fun f hf h => ⟨f, hf, h⟩)⟩

/-- A later machine, still confined: no allocation beyond the first so many has changed since then,
nor has the stack. -/
structure Onward (N : Nat) (m m' : Machine) : Prop where
  confined : Confined N m'
  target : m'.target = m.target
  stack : m'.stack = m.stack
  grown : m.allocated ≤ m'.allocated
  kept : ∀ k : Nat, N ≤ k → k < m.allocated →
    m'.store.memory.allocations[k]? = m.store.memory.allocations[k]?

namespace Onward

theorem refl (h : Confined N m) : Onward N m m :=
  ⟨h, rfl, rfl, Nat.le_refl _, fun _ _ _ => rfl⟩

theorem trans (first : Onward N m n) (second : Onward N n m') : Onward N m m' where
  confined := second.confined
  target := second.target.trans first.target
  stack := second.stack.trans first.stack
  grown := Nat.le_trans first.grown second.grown
  kept k beyond old := by
    rw [second.kept k beyond (Nat.lt_of_lt_of_le old first.grown), first.kept k beyond old]

/-- What was beyond the first so many allocations is so still. -/
theorem getElem? (h : Onward N m m') {k : Nat} {a : Allocation} (beyond : N ≤ k)
    (found : m.store.memory.allocations[k]? = some a) :
    m'.store.memory.allocations[k]? = some a := by
  rw [h.kept k beyond (List.getElem?_eq_some_iff.1 found).1, found]

/-- Evaluating leads onward, as long as it leaves alone what it has no names for. -/
theorem of_evaluates {α : Type} {x : Action Machine α} {V : α → Prop} {a : α} (h : Confined N m)
    (evaluates : Evaluates (fun id => id.index < N) m x V)
    (spares : Spares (fun id => id.index < N) x) (run : x m = (.ok a, m')) :
    Onward N m m' ∧ V a ∧ m'.allocated = m.allocated := by
  obtain ⟨evolved, answer⟩ := evaluates.ok (.refl h.within) run
  have allocated := Memory.length_of_outline_eq evolved.memory
  have target := Memory.target_of_outline_eq evolved.memory
  refine ⟨⟨⟨evolved.numbered h.numbered, evolved.within⟩, target, evolved.stack, ?_, ?_⟩, answer,
    allocated⟩
  · exact Nat.le_of_eq allocated.symm
  · intro k beyond _
    refine spares h.numbered h.within run k fun within => ?_
    have within : (k : Int) < N := within
    omega

/-- So does making memory. -/
theorem of_made {size align : Int} {kind : AllocKind} {a : Allocation} {mem : Memory}
    (h : Confined N m) (made : m.store.memory.Made size align kind p mem a) (journal : Journal) :
    Onward N m (m.withMemory mem journal) where
  confined := ⟨made.numbered h.numbered, fun id holds =>
    h.within id (holds.imp made.holds (fun h => h) fun f hf h => ⟨f, hf, h⟩)⟩
  target := made.target
  stack := rfl
  grown := by
    show m.allocated ≤ mem.allocations.length
    rw [made.allocations, List.length_append]
    exact Nat.le_add_right _ _
  kept k _ old := made.getElem?_of_lt old

end Onward

/-! ## One argument -/

/-- A parameter has in its memory, which is beyond the first so many allocations, what a value of a
type is encoded as. -/
def Receives (N : Nat) (g : Frame) (m : Machine) (name : String) (v : Value) (ty : Ty) : Prop :=
  ∃ (p : Pointer) (k : Nat) (a : Allocation), g.locals.find? name = some p ∧
    p.provenance = some ⟨k⟩ ∧ N ≤ k ∧ m.store.memory.allocations[k]? = some a ∧
    ty.encode m.target v = .ok a.contents

/-- A frame has at least the locals that it had before. -/
def Keeps (g g' : Frame) : Prop :=
  ∀ name p, g.locals.find? name = some p → g'.locals.find? name = some p

theorem Receives.onward {M : Nat} (h : Receives M g m name v ty) (locals : Keeps g g') (le : N ≤ M)
    (onward : Onward N m m') : Receives M g' m' name v ty := by
  obtain ⟨p, k, a, living, named, beyond, found, encoded⟩ := h
  refine ⟨p, k, a, locals name p living, named, beyond, ?_, onward.target.symm ▸ encoded⟩
  exact onward.getElem? (Nat.le_trans le beyond) found

theorem Receives.congr (h : Receives N g m name v ty)
    (same : m'.store.memory = m.store.memory) : Receives N g m' name v ty := by
  obtain ⟨p, k, a, living, named, beyond, found, encoded⟩ := h
  have target : m'.target = m.target := congrArg Memory.target same
  exact ⟨p, k, a, living, named, beyond, same ▸ found, target ▸ encoded⟩

/-- The bytes of a value of a sound type are as many as the type says. -/
theorem length_of_encode {data : List AbsByte} (sound : ty.All (Ty.Sound target))
    (h : ty.encode target v = .ok data) : (data.length : Int) = ty.byteSize target := by
  obtain ⟨wellFormed, bytes⟩ := Ty.encode_eq_ok_iff.1 h
  exact Ty.length_bytes (sound.every.imp fun _ s => s.toLaidOut) wellFormed bytes

/-- Writing a value of a sound type to new memory of its size leaves its bytes there. -/
theorem Onward.of_typedStore {a : Allocation} {align : Int} {u : Unit} (h : Onward N m n)
    (named : ∀ id, v.Carries id → id.index < N) (sound : ty.All (Ty.Sound n.target))
    (id : a.id = ⟨m.allocated⟩) (found : n.store.memory.allocations[m.allocated]? = some a)
    (room : a.size = ty.byteSize n.target)
    (run : onStore (Store.typedStore a.base v ⟨ty, align⟩) n = (.ok u, m')) :
    Onward N m m' ∧ ∃ data, ty.encode n.target v = .ok data ∧
      m'.store.memory.allocations[m.allocated]? = some { a with contents := data } := by
  obtain ⟨mem, stored, rfl⟩ := onStore_change_eq_ok_iff.1 run
  have outline := Memory.outline_of_typedStore h.confined.numbered stored
  have numbered := Memory.numbered_of_outline_eq outline h.confined.numbered
  have target := Memory.target_of_outline_eq outline
  have within (i : AllocId) (holds : Holds { n with store.memory := mem } i) : i.index < N := by
    cases holds with
    | byte holds =>
        rcases Memory.holds_of_typedStore stored holds with old | new
        · exact h.confined.within i (.byte old)
        · exact named i new
    | exposed holds => exact h.confined.within i (.exposed holds)
    | frame hf holds => exact h.confined.within i (.frame hf holds)
  obtain ⟨data, encoded, stored⟩ := Memory.typedStore_eq_ok_iff.1 stored
  have base : a.base.provenance = some ⟨m.allocated⟩ := congrArg some id
  have whole : data.length = a.contents.length := by
    have length := length_of_encode sound encoded
    rw [Allocation.size] at room
    omega
  refine ⟨⟨⟨numbered, within⟩, Eq.trans target h.target, h.stack, ?_, ?_⟩, data, encoded, ?_⟩
  · exact Nat.le_trans h.grown (Nat.le_of_eq (Memory.length_of_outline_eq outline).symm)
  · intro k beyond old
    -- The allocation that is written to is not one of the earlier machine.
    have other : a.base.provenance ≠ some ⟨k⟩ := by
      rw [base]
      intro same
      have number := congrArg AllocId.index (Option.some.inj same)
      simp only at number
      omega
    have written := Memory.overwritten_of_store h.confined.numbered stored
    exact (written.others k other).trans (h.kept k beyond old)
  · exact Memory.getElem?_of_store h.confined.numbered stored found base rfl whole

/-- To pass one argument is to evaluate it, and to write its value to the memory of the parameter. -/
theorem exists_of_passArgument {e : ValueExpr} {given expected : ArgAbi} (h : Confined N m)
    (unforged : e.In .unforged) (sound : Answers m (evalValue e) (SoundTy m.target))
    (run : passArguments [(e, given)] [(name, expected)] g m = (.ok g', m')) :
    Onward N m m' ∧ g.locals.find? name = none ∧
      (∃ p : Pointer, p.Beyond m.allocated ∧ g' = { g with locals := g.locals.insert name p }) ∧
      ∃ v ty n, evalValue e m = (.ok (v, ty), n) ∧ Receives m.allocated g' m' name v ty := by
  rw [passArguments] at run
  simp only [Action.bind_eq_ok_iff, Action.need_eq_ok_iff, Action.ofExcept_eq_iff, getTarget_bind,
    passArguments_nil, Action.pure_eq_ok_iff] at run
  obtain ⟨⟨v, ty⟩, _, evaluated, _, _, ⟨-, rfl⟩, place, _, ⟨declared, rfl⟩, run⟩ := run
  obtain ⟨_, n, ⟨size, rfl⟩, ⟨p, g₁⟩, n₁, begun, _, _, stored, rfl, rfl⟩ := run
  have constants : ∀ v ty, Fragment.unforged.value (.constant v ty) →
      Named (fun id => id.index < N) (v, ty) := fun v ty none id carries =>
    absurd carries (none v ty rfl id)
  obtain ⟨first, named, same⟩ := Onward.of_evaluates h
    (evaluates_evalValue h.numbered h.within constants e unforged)
    (spares_evalValue constants e unforged) evaluated
  obtain ⟨place', a, mem, journal, dead, declared', made, rfl, rfl⟩ := beginLocal_eq_ok begun
  obtain rfl := Except.ok.inj (declared.symm.trans declared')
  have onward := first.trans (.of_made first.confined made journal)
  have typed : ty.All (Ty.Sound (n.withMemory mem journal).target) := by
    rw [onward.target]
    exact sound evaluated
  have id : a.id = ⟨m.allocated⟩ := made.id.trans (congrArg _ (congrArg _ same))
  have found : mem.allocations[m.allocated]? = some a := same ▸ made.getElem?_length
  have room : a.size = ty.byteSize (n.withMemory mem journal).target := by
    have target : (n.withMemory mem journal).target = n.target := made.target
    have size : ty.byteSize n.target = place.byteSize n.target := beq_iff_eq.1 size
    rw [target, size]
    exact made.size
  obtain rfl := made.base
  obtain ⟨onward, data, encoded, written⟩ := onward.of_typedStore named typed id found room stored
  have living : (g.locals.insert name a.base).find? name = some a.base := by
    rw [Table.find?_insert, if_pos rfl]
  have provenance : a.base.provenance = some ⟨m.allocated⟩ := congrArg some id
  refine ⟨onward, dead, ⟨a.base, ⟨m.allocated, provenance, Nat.le_refl _⟩, rfl⟩, v, ty, n, evaluated,
    a.base, m.allocated, _, living, provenance, Nat.le_refl _, written, ?_⟩
  rw [onward.target]
  exact (first.trans (.of_made first.confined made journal)).target ▸ encoded

/-! ## All arguments -/

/-- What passing arguments has made of the callee's frame and of the machine. The parameters live
beside the locals that there were, with new memory, and each of them has received the value of its
argument as it was evaluated once the arguments before it had been passed. -/
structure Passed (N : Nat) (arguments : List (ValueExpr × ArgAbi)) (params : List (String × ArgAbi))
    (g : Frame) (m : Machine) (g' : Frame) (m' : Machine) : Prop where
  onward : Onward N m m'
  later : g.Later m.allocated g'
  keeps : Keeps g g'
  keys : g'.locals.keys = g.locals.keys ++ params.map (·.1)
  received : ∀ (i : Nat) e given name expected, arguments[i]? = some (e, given) →
    params[i]? = some (name, expected) → ∃ h n v ty n',
      passArguments (arguments.take i) (params.take i) g m = (.ok h, n) ∧ n.stack = m.stack ∧
      evalValue e n = (.ok (v, ty), n') ∧ Receives m.allocated g' m' name v ty

theorem Receives.mono {M : Nat} (h : Receives M g m name v ty) (le : N ≤ M) :
    Receives N g m name v ty := by
  obtain ⟨p, k, a, living, named, beyond, rest⟩ := h
  exact ⟨p, k, a, living, named, Nat.le_trans le beyond, rest⟩

/-- A local that begins to live in new memory makes a frame a later one. -/
theorem later_insert (beyond : p.Beyond N) :
    g.Later N { g with locals := g.locals.insert name p } := by
  refine ⟨⟨rfl, rfl, rfl⟩, fun other q found => ?_⟩
  rw [Table.find?_insert] at found
  split at found
  · exact .inr (Option.some.inj found ▸ beyond)
  · exact .inl found

theorem keeps_insert (dead : g.locals.find? name = none) :
    Keeps g { g with locals := g.locals.insert name p } := by
  intro other q found
  have distinct : other ≠ name := by
    rintro rfl
    cases dead.symm.trans found
  rw [Table.find?_insert, if_neg distinct]
  exact found

/-- To pass arguments is to pass the first one, and then the others. -/
theorem passed_of_passArguments {arguments : List (ValueExpr × ArgAbi)}
    {params : List (String × ArgAbi)} (arity : params.length = arguments.length)
    (unforged : ∀ a ∈ arguments, a.1.In .unforged)
    (written : ∀ a ∈ arguments, a.1.In (.written (Ty.All (Ty.Sound target))))
    (confined : Confined N m) (bound : N ≤ m.allocated) (width : m.target = target)
    (declares : m.Declares target) (run : passArguments arguments params g m = (.ok g', m')) :
    Passed N arguments params g m g' m' := by
  induction arguments generalizing params g m with
  | nil =>
      obtain rfl := List.length_eq_zero_iff.1 arity
      rw [passArguments_nil, Action.pure_eq_ok_iff] at run
      obtain ⟨rfl, rfl⟩ := run
      exact ⟨.refl confined, .refl _ g, fun _ _ found => found, (List.append_nil _).symm, nofun⟩
  | cons a arguments ih =>
      obtain ⟨param, params, rfl⟩ := List.exists_cons_of_length_eq_add_one arity
      obtain ⟨e, given⟩ := a
      obtain ⟨name, expected⟩ := param
      rw [passArguments_cons] at run
      obtain ⟨g₁, m₁, first, run⟩ := Action.bind_eq_ok_iff.1 run
      obtain ⟨unforged₁, unforged⟩ := List.forall_mem_cons.1 unforged
      obtain ⟨written₁, written⟩ := List.forall_mem_cons.1 written
      have sound : Answers m (evalValue e) (SoundTy m.target) := by
        rw [width]
        exact answers_evalValue declares e written₁
      obtain ⟨onward, dead, ⟨p, beyond, rfl⟩, v, ty, n, evaluated, receives⟩ :=
        exists_of_passArgument confined unforged₁ sound first
      have declares₁ : m₁.Declares target := fun f hf => declares f (onward.stack ▸ hf)
      have rest := ih (Nat.succ.inj arity) unforged written onward.confined
        (Nat.le_trans bound onward.grown) (onward.target.trans width) declares₁ run
      refine ⟨onward.trans rest.onward, (later_insert beyond).trans onward.grown rest.later,
        fun _ _ found => rest.keeps _ _ (keeps_insert dead _ _ found), ?_, ?_⟩
      · rw [rest.keys, Table.keys_insert_of_find?_eq_none p dead, List.map_cons,
          List.append_assoc, List.singleton_append]
      · intro i e' given' name' expected' argument param
        cases i with
        | zero =>
            obtain ⟨rfl, rfl⟩ := Prod.mk.inj (Option.some.inj argument)
            obtain ⟨rfl, rfl⟩ := Prod.mk.inj (Option.some.inj param)
            refine ⟨g, m, v, ty, n, ?_, rfl, evaluated, ?_⟩
            · rw [List.take_zero, List.take_zero, passArguments_nil]
              rfl
            · exact receives.onward rest.keeps bound rest.onward
        | succ i =>
            obtain ⟨h, n, v, ty, n', before, stack, evaluated, receives⟩ :=
              rest.received i e' given' name' expected' argument param
            refine ⟨h, n, v, ty, n', ?_, stack.trans onward.stack, evaluated,
              receives.mono onward.grown⟩
            rw [List.take_succ_cons, List.take_succ_cons, passArguments_cons,
              Action.apply_bind_of_ok first]
            exact before

end Machine

end AbstractMachine
