/-
# AbstractMachine.Proofs.Machine.Evaluation — what evaluating an expression leaves alone

Evaluating an expression may empty the place that it loads from, may expose provenance, and is noted
in the journal. It does nothing else: the stack, what was printed and the outline of memory stay as
they are. Nor does it come by a name that was not there: if all names that a machine `Holds` lie in
some set, and those of the constants in the expression do, then so do the names in the value and all
that the machine holds afterwards. This is what `Evaluates` says, together with the causes that a
fault can have, and it is shown of every expression by induction.

With the set of all names it says what evaluation leaves alone; with the set of names of allocations
that a program owns it says that evaluation finds no others.
-/
import AbstractMachine.Proofs.Fragment
import AbstractMachine.Proofs.Machine.Operations
import AbstractMachine.Proofs.Memory.Outline
import AbstractMachine.Proofs.Provenance.Carried
import AbstractMachine.Proofs.Table

namespace AbstractMachine

/-! ## Names in memory -/

namespace Memory

variable {m m' : Memory} {p q : Pointer} {size align : Int} {id : AllocId}

/-- A byte of memory carries a name. -/
def Holds (m : Memory) (id : AllocId) : Prop :=
  ∃ a ∈ m.allocations, Carry a.contents id

theorem holds_of_load {data : List AbsByte} (h : m.load p size align = .ok data)
    (carry : Carry data id) : m.Holds id := by
  obtain ⟨-, ⟨-, rfl⟩ | ⟨-, a, hits, rfl⟩⟩ := load_eq_ok_iff.1 h
  · exact absurd carry not_carry_nil
  · obtain ⟨_, -, found⟩ := hits.named
    exact ⟨a, mem_allocations_of_allocation found, carry.of_read⟩

theorem holds_of_typedLoad {place : PlaceTy} {v : Value} (h : m.typedLoad p place = .ok v)
    (carries : v.Carries id) : m.Holds id := by
  obtain ⟨data, loaded, decoded⟩ := typedLoad_eq_ok_iff.1 h
  exact holds_of_load loaded (Ty.carry_of_decode decoded carries)

theorem holds_of_modify {i : AllocId} {f : Allocation → Allocation} {P : Prop}
    (step : ∀ a, Carry (f a).contents id → Carry a.contents id ∨ P)
    (h : (m.modify i f).Holds id) : m.Holds id ∨ P := by
  obtain ⟨b, hb, carry⟩ := h
  obtain ⟨k, found⟩ := List.mem_iff_getElem?.1 hb
  rw [allocations_modify] at found
  split at found
  · obtain ⟨a, ha, rfl⟩ := Option.map_eq_some_iff.1 found
    exact (step a carry).imp_left fun carry => ⟨a, List.mem_of_getElem? ha, carry⟩
  · exact .inl ⟨b, List.mem_of_getElem? found, carry⟩

/-- A store brings in the names of what is stored, and no others. -/
theorem holds_of_store {data : List AbsByte} (h : m.store p data align = .ok m')
    (holds : m'.Holds id) : m.Holds id ∨ Carry data id := by
  obtain ⟨-, ⟨-, rfl⟩ | ⟨-, a, -, rfl⟩⟩ := store_eq_ok_iff.1 h
  · exact .inl holds
  · exact holds_of_modify (fun b carry => carry.of_overlay) holds

theorem holds_of_typedStore {place : PlaceTy} {v : Value} (h : m.typedStore p v place = .ok m')
    (holds : m'.Holds id) : m.Holds id ∨ v.Carries id := by
  obtain ⟨data, encoded, stored⟩ := typedStore_eq_ok_iff.1 h
  exact (holds_of_store stored holds).imp_right (Ty.carries_of_encode encoded)

theorem holds_of_deinit {place : PlaceTy} (h : m.deinit p place = .ok m') (holds : m'.Holds id) :
    m.Holds id :=
  (holds_of_store h holds).resolve_right (not_carry_blank _)

theorem exists_covers {a : Allocation} (found : m.allocation id = .ok a) (addr : Int)
    (onePastEnd : Bool) : ∃ b, m.covers id addr onePastEnd = .ok b := by
  rw [covers, found]
  exact ⟨_, rfl⟩

theorem outline_of_typedStore {place : PlaceTy} {v : Value} (numbered : m.Numbered)
    (h : m.typedStore p v place = .ok m') : m'.outline = m.outline := by
  obtain ⟨data, -, stored⟩ := typedStore_eq_ok_iff.1 h
  exact outline_of_store numbered stored

end Memory

/-! ## Names in a machine -/

/-- A name occurs in a frame: in the pointer to a local, or in the pointer to the place that waits
for its result. -/
inductive Frame.Holds (f : Frame) (id : AllocId) : Prop
  | slot {e : String × Pointer} (h : e ∈ f.locals.entries) (named : e.2.provenance = some id)
  | result {r : Pointer × PlaceTy} (h : f.result = some r) (named : r.1.provenance = some id)

/-- A name occurs in frames or in a store: in a frame, in a byte of memory, or among the names that
were exposed. -/
inductive Held (frames : List Frame) (s : Store) (id : AllocId) : Prop
  | byte (h : s.memory.Holds id)
  | exposed (h : id ∈ s.casts.exposed)
  | frame {f : Frame} (hf : f ∈ frames) (h : f.Holds id)

/-- A name occurs elsewhere if each of its occurrences has one there. -/
theorem Held.imp {frames frames' : List Frame} {s s' : Store} {id : AllocId}
    (h : Held frames s id) (byte : s.memory.Holds id → s'.memory.Holds id)
    (exposed : id ∈ s.casts.exposed → id ∈ s'.casts.exposed)
    (frame : ∀ f ∈ frames, f.Holds id → ∃ g ∈ frames', g.Holds id) : Held frames' s' id := by
  cases h with
  | byte h => exact .byte (byte h)
  | exposed h => exact .exposed (exposed h)
  | frame hf h =>
      obtain ⟨g, hg, h⟩ := frame _ hf h
      exact .frame hg h

theorem Held.mono {frames frames' : List Frame} {s : Store} {id : AllocId}
    (h : Held frames s id) (sub : ∀ f ∈ frames, f ∈ frames') : Held frames' s id :=
  h.imp (fun h => h) (fun h => h) fun f hf h => ⟨f, sub f hf, h⟩

namespace Machine

/-- A name occurs in a machine. -/
def Holds (m : Machine) (id : AllocId) : Prop :=
  Held m.stack m.store id

/-- A machine with all forgotten that an evaluation may change. -/
def outline (m : Machine) : Machine :=
  { m with store :=
    { memory := m.store.memory.outline, casts := { predictor := m.store.casts.predictor } } }

/-- The cause of a fault, as the machine shows it that is left: the store refuses an access, or the
one who was asked last answered with a fault, or the program is to end. -/
inductive Cause (W : AllocId → Prop) (m : Machine) (f : Fault) : Prop
  | refused (h : m.store.memory.Refuses W f)
  | chooser {c : AddressConstraints} {asked : List AddressConstraints}
      (last : m.store.memory.asked = c :: asked)
      (answer : m.store.memory.chooser asked c = .error f)
  | predictor {addr : Int} {asked : List CastQuery}
      (last : m.store.casts.asked = m.castQuery addr :: asked)
      (answer : m.store.casts.predictor asked (m.castQuery addr) = .error f)
  | ends (h : f.Ends)

/-- What an evaluation that began in the first machine may have made of it, if it found names in a
set. -/
structure Evolved (W : AllocId → Prop) (m₀ m : Machine) : Prop where
  outline : m.outline = m₀.outline
  within : ∀ id, m.Holds id → W id
  exposed : ∀ id ∈ m₀.store.casts.exposed, id ∈ m.store.casts.exposed

/-- An action only evaluates: what it makes of a machine is what an evaluation may, its answer is as
said, and a fault has a cause. -/
def Evaluates {α : Type} (W : AllocId → Prop) (m₀ : Machine) (x : Action Machine α)
    (V : α → Prop) : Prop :=
  Action.Keeps (Evolved W m₀) x V fun f m => m.Cause W f

variable {W : AllocId → Prop} {m₀ m m' : Machine} {α β : Type} {p : Pointer}

/-- Nothing has happened yet. -/
theorem Evolved.refl (h : ∀ id, m.Holds id → W id) : m.Evolved W m :=
  ⟨rfl, h, fun _ h => h⟩

namespace Evolved

variable (h : Evolved W m₀ m)

include h

theorem stack : m.stack = m₀.stack := by
  have same := congrArg Machine.stack h.outline
  exact same

theorem memory : m.store.memory.outline = m₀.store.memory.outline := by
  have same := congrArg (fun m : Machine => m.store.memory) h.outline
  exact same

theorem numbered (numbered : m₀.store.memory.Numbered) : m.store.memory.Numbered :=
  Memory.numbered_of_outline_eq h.memory numbered

end Evolved

/-! ## Evaluations -/

/-- Asking the predictor leaves the names of a machine as they are. -/
theorem holds_afterCast {addr : Int} {id : AllocId} {journal : Journal} :
    Holds { m.afterCast addr with store.journal := journal } id → m.Holds id :=
  fun holds => holds.imp (fun h => h) (fun h => h) fun f hf h => ⟨f, hf, h⟩

namespace Evaluates

theorem ofExcept {e : Except Fault α} (h : FailsIn Fault.Ordinary e) :
    Evaluates W m₀ (Action.ofExcept e) fun a => e = .ok a :=
  Action.Keeps.ofExcept (fun _ ha => ha) (h.mono fun _ h _ _ => .refused (.inl h))

theorem throw {V : α → Prop} {f : Fault} (h : f.Ordinary) :
    Evaluates W m₀ (throw f : Action Machine α) V :=
  Action.Keeps.throw fun _ _ => .refused (.inl h)

theorem need {c : Bool} {f : Fault} (h : f.Ordinary) :
    Evaluates W m₀ (Action.need c f) fun _ => c = true :=
  Action.Keeps.need fun _ _ => .refused (.inl h)

theorem getTarget : Evaluates W m₀ getTarget fun _ => True :=
  Action.Keeps.get.bind fun _ _ => .pure trivial

theorem frame : Evaluates W m₀ Machine.frame fun f => f ∈ m₀.stack := by
  refine Action.Keeps.get.bind fun m hm => ?_
  rw [← hm.stack]
  cases m.stack with
  | nil => exact throw trivial
  | cons f rest => exact .pure List.mem_cons_self

/-- A question to memory changes nothing. -/
theorem ask {V : α → Prop} {f : Memory → Except Fault α}
    (ok : ∀ (mem : Memory) a, (∀ id, mem.Holds id → W id) → f mem = .ok a → V a)
    (error : ∀ mem : Memory, FailsIn (mem.Refuses W) (f mem)) :
    Evaluates W m₀ (onStore (Store.ask f)) V :=
  Action.Keeps.ask (f := fun m : Machine => f m.store.memory)
    (fun m a hm ha => ok m.store.memory a (fun id holds => hm.within id (.byte holds)) ha)
    fun m _ => (error m.store.memory).mono fun _ => .refused

/-- A change of memory that keeps its outline and brings in no other names. -/
theorem change {f : Memory → Except Fault Memory} (numbered : m₀.store.memory.Numbered)
    (ok : ∀ mem mem' : Memory, mem.Numbered → f mem = .ok mem' →
      mem'.outline = mem.outline ∧ ∀ id, mem'.Holds id → mem.Holds id ∨ W id)
    (error : ∀ mem : Memory, FailsIn (mem.Refuses W) (f mem)) :
    Evaluates W m₀ (onStore (Store.change f)) fun _ => True where
  ok hm run := by
    obtain ⟨mem, h, rfl⟩ := onStore_change_eq_ok_iff.1 run
    obtain ⟨outline, names⟩ := ok _ _ (hm.numbered numbered) h
    refine ⟨⟨?_, ?_, hm.exposed⟩, trivial⟩
    · rw [← hm.outline, Machine.outline, Machine.outline, outline]
    · intro id holds
      cases holds with
      | byte holds =>
          rcases names id holds with old | new
          · exact hm.within id (.byte old)
          · exact new
      | exposed h => exact hm.within id (.exposed h)
      | frame hf h => exact hm.within id (.frame hf h)
  error hm run := by
    obtain ⟨h, rfl⟩ := onStore_change_eq_error_iff.1 run
    exact ⟨hm, .refused (error _ _ h)⟩

/-- Exposing a pointer whose provenance lies in the set. -/
theorem expose (h : ∀ id, p.provenance = some id → W id) :
    Evaluates W m₀ (onStore (Store.expose p)) fun _ => True where
  ok {m m'} a hm run := by
    obtain ⟨journal, exposed⟩ := onStore_expose p m
    obtain ⟨-, rfl⟩ := Prod.mk.inj (exposed.symm.trans run)
    refine ⟨⟨?_, ?_, ?_⟩, trivial⟩
    · rw [← hm.outline]
      simp only [Machine.outline, Casts.expose]
      split <;> rfl
    · intro id holds
      cases holds with
      | byte holds => exact hm.within id (.byte holds)
      | exposed holds =>
          rcases Casts.mem_exposed_expose.1 holds with old | new
          · exact hm.within id (.exposed old)
          · exact h id new
      | frame hf h => exact hm.within id (.frame hf h)
    · intro id old
      exact Casts.mem_exposed_expose.2 (.inl (hm.exposed id old))
  error {m m'} e hm run := by
    obtain ⟨journal, exposed⟩ := onStore_expose p m
    obtain ⟨⟨⟩, -⟩ := Prod.mk.inj (exposed.symm.trans run)

/-- An address becomes a pointer with an exposed provenance, or without one. -/
theorem fromAddr (addr : Int) :
    Evaluates W m₀ (Machine.fromAddr addr) fun p => ∀ id, p.provenance = some id → W id where
  ok {m m'} q hm run := by
    obtain ⟨answer, journal, rfl⟩ := fromAddr_eq_ok run
    obtain ⟨-, exposed, -⟩ := castAnswer_eq_ok answer
    refine ⟨⟨?_, ?_, hm.exposed⟩, fun id named => hm.within id (.exposed (exposed id named))⟩
    · rw [← hm.outline]
      rfl
    · exact fun id holds => hm.within id (holds_afterCast holds)
  error {m m'} e hm run := by
    obtain ⟨failed, rfl⟩ := fromAddr_eq_error run
    refine ⟨⟨?_, ?_, hm.exposed⟩, ?_⟩
    · rw [← hm.outline]
      rfl
    · exact fun id (holds : (m.afterCast addr).Holds id) => hm.within id (holds_afterCast holds)
    · rcases castAnswer_eq_error failed with answer | ordinary
      · exact .predictor rfl answer
      · exact .refused (.inl ordinary)

end Evaluates

/-! ## Operators -/

section Operators

variable {v l r : Value} {ty lt rt : Ty}

/-- The names in an answer are among those of a set. -/
def Named (W : AllocId → Prop) (a : Value × Ty) : Prop :=
  ∀ id, a.1.Carries id → W id

theorem Named.int {n : Int} {ty : Ty} : Named W (.int n, ty) :=
  fun _ h => absurd h (Value.not_carries_int n)

theorem Named.bool {b : Bool} {ty : Ty} : Named W (.bool b, ty) :=
  fun _ h => absurd h (Value.not_carries_bool b)

theorem Named.ptr {p : Pointer} {ty : Ty} (h : ∀ id, p.provenance = some id → W id) :
    Named W (.ptr p, ty) :=
  fun id carries => h id (Value.carries_ptr_iff.1 carries)

theorem offsetInBounds_provenance {m : Memory} {p q : Pointer} {offset : Int}
    (h : m.offsetInBounds p offset = .ok q) : q.provenance = p.provenance := by
  obtain ⟨-, -, -, rfl⟩ := Memory.offsetInBounds_eq_ok_iff.1 h
  rfl

theorem relOp_eq_ok {op : RelOp} {a : Value × Ty} (h : op.eval l r = .ok a) :
    ∃ x, comparable l = .ok x ∧ ∃ y, comparable r = .ok y ∧
      (a = (.int (signOf x y), .int ⟨true, 1⟩) ∨ a = (.bool (op.holds x y), .bool)) := by
  obtain ⟨x, hx, h⟩ := bind_eq_ok_iff.1 h
  obtain ⟨y, hy, h⟩ := bind_eq_ok_iff.1 h
  refine ⟨x, hx, y, hy, ?_⟩
  split at h
  · exact .inl (Except.ok.inj h).symm
  · exact .inr (Except.ok.inj h).symm

theorem Evaluates.offsetInBounds {offset : Int} (h : ∀ id, p.provenance = some id → W id) :
    Evaluates W m₀ (Machine.offsetInBounds p offset) fun q =>
      ∀ id, q.provenance = some id → W id :=
  .ask (fun _ _ _ hq id named => h id (offsetInBounds_provenance hq ▸ named))
    fun _ => Memory.failsIn_offsetInBounds h

/-- An operator on one value yields no names but those of the value, and those that are exposed. -/
theorem evaluates_evalUnary (op : UnaryOp) (h : Named W (v, ty)) :
    Evaluates W m₀ (evalUnary op v ty) (Named W) := by
  cases op with
  | neg | bitNot =>
      refine (Evaluates.ofExcept (failsIn_intOperand v ty)).bind fun ⟨n, t⟩ _ => ?_
      exact (Evaluates.ofExcept (t.failsIn_wrap _)).bind fun _ _ => .pure Named.int
  | not => exact (Evaluates.ofExcept (failsIn_boolOperand v)).bind fun _ _ => .pure Named.bool
  | cast t =>
      refine (Evaluates.ofExcept (failsIn_intOperand v ty)).bind fun ⟨n, _⟩ _ => ?_
      exact (Evaluates.ofExcept (t.failsIn_wrap _)).bind fun _ _ => .pure Named.int
  | transmute t =>
      refine Evaluates.getTarget.bind fun target _ => ?_
      refine (Evaluates.ofExcept (failsIn_transmute target v ty t)).bind fun w hw => ?_
      exact .pure fun id carries => h id (Value.carries_of_transmute hw carries)
  | expose =>
      cases v with
      | ptr p =>
          refine (Evaluates.expose fun id named => h id (.ptr named)).bind fun addr _ => ?_
          exact Evaluates.getTarget.bind fun target _ => .pure Named.int
      | _ => exact Evaluates.throw trivial
  | fromAddr t =>
      refine (Evaluates.ofExcept (failsIn_intOperand v ty)).bind fun ⟨n, _⟩ _ => ?_
      refine Evaluates.getTarget.bind fun target _ => ?_
      refine (Evaluates.ofExcept (IntTy.failsIn_canRepresent _ _)).bind fun inBounds _ => ?_
      refine (Evaluates.need (by trivial)).bind fun _ _ => ?_
      refine (Evaluates.fromAddr n).bind fun p hp => ?_
      refine (Evaluates.ofExcept (t.failsIn_wellFormed target _)).bind fun valid _ => ?_
      exact (Evaluates.need (by trivial)).bind fun _ _ => .pure (Named.ptr hp)

/-- An operator on two values yields no names but those of the left one. -/
theorem evaluates_evalBinary (op : BinaryOp) (h : Named W (l, lt)) :
    Evaluates W m₀ (evalBinary op l lt r rt) (Named W) := by
  cases op with
  | int op =>
      refine (Evaluates.ofExcept (failsIn_intOperand l lt)).bind fun ⟨a, t⟩ _ => ?_
      refine (Evaluates.ofExcept (failsIn_intOperand r rt)).bind fun ⟨b, _⟩ _ => ?_
      exact (Evaluates.ofExcept (failsIn_intBinOp op t a b)).bind fun _ _ => .pure Named.int
  | rel op =>
      refine (Evaluates.ofExcept (failsIn_relOp op l r)).mono fun a ha => ?_
      obtain ⟨x, -, y, -, ha⟩ := relOp_eq_ok ha
      rcases ha with rfl | rfl
      · exact Named.int
      · exact Named.bool
  | bool op =>
      refine (Evaluates.ofExcept (failsIn_boolOperand l)).bind fun _ _ => ?_
      exact (Evaluates.ofExcept (failsIn_boolOperand r)).bind fun _ _ => .pure Named.bool
  | offset inbounds =>
      cases l with
      | ptr p =>
          have hp : ∀ id, p.provenance = some id → W id := fun id named => h id (.ptr named)
          refine (Evaluates.ofExcept (failsIn_intOperand r rt)).bind fun ⟨n, _⟩ _ => ?_
          cases inbounds with
          | true => exact (Evaluates.offsetInBounds hp).bind fun q hq => .pure (Named.ptr hq)
          | false =>
              refine Evaluates.getTarget.bind fun target _ => ?_
              refine (Evaluates.ofExcept (failsIn_wrappingOffset p n target)).bind fun q hq => ?_
              obtain ⟨_, -, hq⟩ := bind_eq_ok_iff.1 hq
              obtain rfl := Except.ok.inj hq
              exact .pure (Named.ptr hp)
      | _ => exact Evaluates.throw trivial

end Operators

/-! ## Expressions -/

section Expressions

set_option linter.unusedSectionVars false

theorem evaluates_typedLoad {place : PlaceTy} (hp : ∀ id, p.provenance = some id → W id) :
    Evaluates W m₀ (onStore (Store.typedLoad p place)) fun v => ∀ id, v.Carries id → W id :=
  .ask (fun _ _ names hv id carries => names id (Memory.holds_of_typedLoad hv carries))
    fun _ => Memory.failsIn_typedLoad hp

theorem evaluates_typedStore {place : PlaceTy} {v : Value} (numbered : m₀.store.memory.Numbered)
    (hp : ∀ id, p.provenance = some id → W id) (hv : ∀ id, v.Carries id → W id) :
    Evaluates W m₀ (onStore (Store.typedStore p v place)) fun _ => True :=
  .change numbered
    (fun _ _ numbered h => ⟨Memory.outline_of_typedStore numbered h, fun id holds =>
      (Memory.holds_of_typedStore h holds).imp_right (hv id)⟩)
    fun _ => Memory.failsIn_typedStore hp

theorem evaluates_deinit {place : PlaceTy} (numbered : m₀.store.memory.Numbered)
    (hp : ∀ id, p.provenance = some id → W id) :
    Evaluates W m₀ (onStore (Store.deinit p place)) fun _ => True :=
  .change numbered
    (fun _ _ numbered h => ⟨Memory.outline_of_store numbered h, fun _ holds =>
      .inl (Memory.holds_of_deinit h holds)⟩)
    fun _ => Memory.failsIn_store hp

variable {L : Fragment}

/-- The names in an answer about a place are among those of a set. -/
def NamedPlace (W : AllocId → Prop) (a : Pointer × PlaceTy) : Prop :=
  ∀ id, a.1.provenance = some id → W id

theorem evaluates_localPlace (hm₀ : ∀ id, m₀.Holds id → W id) (name : String) :
    Evaluates W m₀ (localPlace name) (NamedPlace W) := by
  refine Evaluates.frame.bind fun f hf => ?_
  cases found : f.locals.find? name with
  | none => exact Evaluates.throw trivial
  | some p =>
      refine (Evaluates.ofExcept (f.failsIn_localTy name)).bind fun place _ => .pure ?_
      exact fun id named => hm₀ id (.frame hf (.slot (Table.mem_entries_of_find? found) named))

variable (numbered : m₀.store.memory.Numbered) (hm₀ : ∀ id, m₀.Holds id → W id)
  (constants : ∀ v ty, L.value (.constant v ty) → Named W (v, ty))

include numbered hm₀ constants

mutual

/-- Evaluating a value expression yields no names but those that the machine held, and those of
constants. -/
theorem evaluates_evalValue : ∀ e : ValueExpr, e.In L → Evaluates W m₀ (evalValue e) (Named W)
  | .constant v ty, h => by
      rw [evalValue]
      exact .pure (constants v ty h)
  | .function name, _ => by
      rw [evalValue]
      refine Action.Keeps.get.bind fun m _ => ?_
      cases m.functions.find? name with
      | none => exact Evaluates.throw trivial
      | some addr => exact .pure (Named.ptr nofun)
  | .tuple parts ty, h => by
      rw [evalValue]
      refine (Evaluates.ofExcept ty.failsIn_requireTuple).bind fun _ _ => ?_
      refine (evaluates_evalAll parts h.2).bind fun vs hvs => .pure fun id carries => ?_
      obtain ⟨_, mem, carries⟩ := Value.carries_tuple_iff.1 carries
      obtain ⟨v, hv, rfl⟩ := List.mem_map.1 mem
      exact hvs v hv id carries
  | .union field operand ty, h => by
      rw [evalValue]
      refine (evaluates_evalValue operand h.2).bind fun ⟨v, _⟩ hv => ?_
      refine Evaluates.getTarget.bind fun target _ => ?_
      refine (Evaluates.ofExcept (ty.failsIn_ofField target field v)).bind fun w hw => .pure ?_
      exact fun id carries => hv id (UnionTy.carries_of_ofField hw carries)
  | .variant d payload ty, h => by
      rw [evalValue]
      refine (evaluates_evalValue payload h.2).bind fun ⟨v, _⟩ hv => ?_
      refine (Evaluates.ofExcept (ty.failsIn_variantAt d)).bind fun _ _ => .pure ?_
      exact fun id carries => hv id (Value.carries_variant_iff.1 carries)
  | .discriminant p, h => by
      rw [evalValue]
      refine (evaluates_evalPlace p h.2).bind fun ⟨p, ⟨ty, align⟩⟩ hp => ?_
      cases ty with
      | enum e =>
          refine (Evaluates.ask (V := fun _ => True) (fun _ _ _ _ => trivial)
            fun _ => Memory.failsIn_load hp).bind fun data _ => ?_
          refine Evaluates.getTarget.bind fun target _ => ?_
          cases e.discriminator.decode target data with
          | none => exact Evaluates.throw trivial
          | some d => exact .pure Named.int
      | _ => exact Evaluates.throw trivial
  | .load p destructive, h => by
      rw [evalValue]
      refine (evaluates_evalPlace p h.2).bind fun ⟨p, place⟩ hp => ?_
      refine (evaluates_typedLoad hp).bind fun v hv => ?_
      cases destructive with
      -- A value that is moved out leaves blank bytes behind, as many as there were.
      | false => exact .pure hv
      | true => exact (evaluates_deinit numbered hp).bind fun _ _ => .pure hv
  | .addrOf p ty, h => by
      rw [evalValue]
      exact (evaluates_evalPlace p h.2).bind fun ⟨p, _⟩ hp => .pure (Named.ptr hp)
  | .createRef p ty, h => by
      rw [evalValue]
      refine (evaluates_evalPlace p h.2).bind fun ⟨p, _⟩ hp => ?_
      refine Evaluates.getTarget.bind fun target _ => ?_
      refine (Evaluates.ofExcept (ty.failsIn_wellFormed target _)).bind fun valid _ => ?_
      exact (Evaluates.need (by trivial)).bind fun _ _ => .pure (Named.ptr hp)
  | .unary op operand, h => by
      rw [evalValue]
      exact (evaluates_evalValue operand h.2).bind fun ⟨v, ty⟩ hv => evaluates_evalUnary op hv
  | .binary op left right, h => by
      rw [evalValue]
      -- No operator hands on a name of its right operand.
      refine (evaluates_evalValue left h.2.1).bind fun ⟨l, lt⟩ hl => ?_
      exact (evaluates_evalValue right h.2.2).bind fun ⟨r, rt⟩ _ => evaluates_evalBinary op hl

/-- Finding a place yields a pointer with no name but those that the machine held. -/
theorem evaluates_evalPlace : ∀ p : PlaceExpr, p.In L → Evaluates W m₀ (evalPlace p) (NamedPlace W)
  | .var name, _ => by
      rw [evalPlace]
      exact evaluates_localPlace hm₀ name
  | .deref operand place, h => by
      rw [evalPlace]
      refine (evaluates_evalValue operand h).bind fun ⟨v, _⟩ hv => ?_
      cases v with
      | ptr p => exact .pure fun id named => hv id (.ptr named)
      | _ => exact Evaluates.throw trivial
  | .field root i, h => by
      rw [evalPlace]
      refine (evaluates_evalPlace root h).bind fun ⟨p, ⟨ty, align⟩⟩ hp => ?_
      refine (Evaluates.ofExcept (ty.failsIn_fieldAt i)).bind fun f _ => ?_
      exact (Evaluates.offsetInBounds hp).bind fun q hq => .pure hq
  | .index root i, h => by
      rw [evalPlace]
      refine (evaluates_evalPlace root h.1).bind fun ⟨p, ⟨ty, align⟩⟩ hp => ?_
      refine (evaluates_evalValue i h.2).bind fun ⟨n, _⟩ _ => ?_
      refine Evaluates.getTarget.bind fun target _ => ?_
      refine (Evaluates.ofExcept (ty.failsIn_elementOffset target n)).bind
        fun ⟨distance, elem, size⟩ _ => ?_
      exact (Evaluates.offsetInBounds hp).bind fun q hq => .pure hq
  | .downcast root d, h => by
      rw [evalPlace]
      refine (evaluates_evalPlace root h).bind fun ⟨p, ⟨ty, align⟩⟩ hp => ?_
      cases ty with
      | enum e => exact (Evaluates.ofExcept (e.failsIn_variantAt d)).bind fun _ _ => .pure hp
      | _ => exact Evaluates.throw trivial

theorem evaluates_evalAll : ∀ es : List ValueExpr, ValueExpr.allIn L es →
    Evaluates W m₀ (evalAll es) fun vs => ∀ v ∈ vs, Named W v
  | [], _ => .pure nofun
  | e :: es, h => by
      rw [evalAll]
      refine (evaluates_evalValue e h.1).bind fun v hv => ?_
      refine (evaluates_evalAll es h.2).bind fun vs hvs => .pure ?_
      exact List.forall_mem_cons.2 ⟨hv, hvs⟩

end

end Expressions

end Machine

end AbstractMachine
