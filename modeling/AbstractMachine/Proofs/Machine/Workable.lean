/-
# AbstractMachine.Proofs.Machine.Workable — evaluating where types are workable

A program may be wrong in any way: layouts may contradict each other, blocks and locals may be
missing, operands may be of the wrong types. If only the types and places that it is written with
are workable, evaluating an expression leads to types and places that are, and fails in foreseen
ways only. The types of answers have to be followed for this, since it is with them that memory and
operators are asked; the values do not matter.

A machine is `Workable` as long as all this holds of its program and its frames, its pointers have
at least one byte, and its chooser and its predictor are foreseeable.
-/
import AbstractMachine.Proofs.Machine.Typing
import AbstractMachine.Proofs.Memory.Foreseen

namespace AbstractMachine

/-! ## Programs -/

mutual

/-- The types and places that a value expression is written with are workable. -/
def ValueExpr.Workable : ValueExpr → Prop
  | .constant _ ty => ty.All Ty.Workable
  | .function _ => True
  | .tuple parts ty => ty.All Ty.Workable ∧ ValueExpr.allWorkable parts
  | .union _ operand ty => (Ty.union ty).All Ty.Workable ∧ operand.Workable
  | .variant _ payload ty => (Ty.enum ty).All Ty.Workable ∧ payload.Workable
  | .discriminant place => place.Workable
  | .load place _ => place.Workable
  | .addrOf place ty => ty.All Ty.Workable ∧ place.Workable
  | .createRef place ty => ty.All Ty.Workable ∧ place.Workable
  | .unary op operand => (∀ t ∈ op.ty?, t.All Ty.Workable) ∧ operand.Workable
  | .binary _ left right => left.Workable ∧ right.Workable

/-- The types and places that a place expression is written with are workable. -/
def PlaceExpr.Workable : PlaceExpr → Prop
  | .var _ => True
  | .deref operand place => place.Workable ∧ operand.Workable
  | .field root _ => root.Workable
  | .index root i => root.Workable ∧ i.Workable
  | .downcast root _ => root.Workable

def ValueExpr.allWorkable : List ValueExpr → Prop
  | [] => True
  | e :: es => e.Workable ∧ ValueExpr.allWorkable es

end

theorem ValueExpr.allWorkable_iff {es : List ValueExpr} :
    ValueExpr.allWorkable es ↔ ∀ e ∈ es, e.Workable := by
  induction es with
  | nil => simp [ValueExpr.allWorkable]
  | cons e es ih => simp [ValueExpr.allWorkable, ih]

/-- The expressions of a statement are workable. -/
def Statement.Workable : Statement → Prop
  | .assign destination source => destination.Workable ∧ source.Workable
  | .finalize place => place.Workable
  | .live _ => True
  | .dead _ => True
  | .setDiscriminant place _ => place.Workable
  | .deinit place => place.Workable
  | .validate place => place.Workable
  | .mention place => place.Workable

/-- The expressions of a terminator are workable. -/
def Terminator.Workable : Terminator → Prop
  | .goto _ => True
  | .ite condition _ _ => condition.Workable
  | .switch value _ _ => value.Workable
  | .unreachable => True
  | .call callee arguments result _ _ _ =>
      callee.Workable ∧ (∀ a ∈ arguments, a.1.Workable) ∧ result.Workable
  | .ret => True
  | .intrinsic _ arguments result _ =>
      (∀ e ∈ arguments, e.Workable) ∧ ∀ place ∈ result, place.Workable

/-- All of a block is workable. -/
structure Block.Workable (b : Block) : Prop where
  statements : ∀ s ∈ b.statements, s.Workable
  terminator : b.terminator.Workable

/-- The places of a function's locals are workable, and all its blocks. -/
structure Function.Workable (f : Function) : Prop where
  locals : ∀ d ∈ f.locals.entries, d.2.Workable
  blocks : ∀ e ∈ f.blocks.entries, e.2.Workable

/-- All functions of a program are workable. -/
def Program.Workable (p : Program) : Prop :=
  ∀ e ∈ p.functions.entries, e.2.Workable

/-! ## Machines -/

/-- A frame runs a workable function, and the place that waits for its result is workable. -/
structure Frame.Workable (f : Frame) : Prop where
  function : f.function.Workable
  result : ∀ r ∈ f.result, r.2.Workable

namespace Machine

/-- What a machine needs so that it fails in foreseen ways only. -/
structure Workable (m : Machine) : Prop where
  width : 1 ≤ m.target.ptrSize
  chooser : m.store.memory.chooser.Foreseeable
  predictor : m.store.casts.predictor.Foreseeable
  program : m.program.Workable
  stack : ∀ f ∈ m.stack, f.Workable

variable {m m' : Machine} {p : Pointer} {α β : Type} {v l r : Value} {ty lt rt : Ty}

namespace Workable

/-- Other memory for the same target, placed by the same chooser. -/
theorem withMemory (h : m.Workable) {mem : Memory} (target : mem.target = m.target)
    (chooser : mem.chooser = m.store.memory.chooser) (journal : Journal) :
    (m.withMemory mem journal).Workable where
  width := show 1 ≤ mem.target.ptrSize from target.symm ▸ h.width
  chooser := show mem.chooser.Foreseeable from chooser.symm ▸ h.chooser
  predictor := h.predictor
  program := h.program
  stack := h.stack

/-- Memory changes by calls of its operations. -/
theorem after (h : m.Workable) {c : Memory.Call} {mem : Memory}
    (called : m.store.memory.after c = mem) (journal : Journal) :
    (m.withMemory mem journal).Workable :=
  h.withMemory (called ▸ m.store.memory.target_after c) (called ▸ m.store.memory.chooser_after c)
    journal

theorem withStack (h : m.Workable) {stack : List Frame} (frames : ∀ f ∈ stack, f.Workable) :
    Workable { m with stack := stack } :=
  { h with stack := frames }

end Workable

/-- Begun on a workable machine, an action leaves it workable, whether it fails or not. Its answer
is as said, and so is its fault. -/
def Works (E : Fault → Prop) (x : Action Machine α) (V : α → Prop := fun _ => True) : Prop :=
  Action.Keeps Workable x V fun f _ => E f

namespace Works

variable {E F : Fault → Prop} {x : Action Machine α} {f : α → Action Machine β} {V : α → Prop}
  {W : β → Prop}

theorem bind (hx : Works E x V) (hf : ∀ a, V a → Works E (f a) W) : Works E (x >>= f) W :=
  Action.Keeps.bind hx hf

/-- After an answer of which nothing is said. -/
theorem seq (hx : Works E x) (hf : ∀ a, Works E (f a) W) : Works E (x >>= f) W :=
  Action.Keeps.bind hx fun a _ => hf a

theorem mono (h : Works E x V) (sub : ∀ f, E f → F f) : Works F x V :=
  h.consequence (fun _ hm => hm) (fun _ _ hm => hm) fun f _ hm => ⟨hm.1, sub f hm.2⟩

theorem answer {a : α} (h : V a) : Works E (pure a : Action Machine α) V :=
  Action.Keeps.pure h

theorem nothing {a : α} : Works E (pure a : Action Machine α) :=
  answer trivial

theorem throw {e : Fault} (h : E e) : Works E (throw e : Action Machine α) V :=
  Action.Keeps.throw fun _ _ => h

theorem ofExcept {e : Except Fault α} (h : FailsIn E e) :
    Works E (Action.ofExcept e) fun a => e = .ok a :=
  Action.Keeps.ofExcept (fun _ found => found) fun f failed _ _ => h f failed

theorem need {c : Bool} {e : Fault} (h : E e) : Works E (Action.need c e) :=
  Action.Keeps.mono (Action.Keeps.need fun _ _ => h) fun _ _ => trivial

theorem getTarget : Works E Machine.getTarget fun target => 1 ≤ target.ptrSize :=
  bind Action.Keeps.get fun _ hm => answer hm.width

/-- A question to memory. -/
theorem ask {g : Memory → Except Fault α}
    (h : ∀ mem : Memory, 1 ≤ mem.target.ptrSize → FailsIn E (g mem)) :
    Works E (onStore (Store.ask g)) where
  ok hm run := by
    obtain ⟨-, rfl⟩ := Prod.mk.inj run
    exact ⟨hm, trivial⟩
  error hm run := by
    obtain ⟨failed, rfl⟩ := Prod.mk.inj run
    exact ⟨hm, h _ hm.width _ failed⟩

theorem alter {change : Machine → Machine} (h : ∀ m : Machine, m.Workable → (change m).Workable) :
    Works E (modify change : Action Machine PUnit) :=
  Action.Meets.modify fun m hm => ⟨h m hm, trivial⟩

theorem note (e : Event) : Works E (Machine.note e) :=
  .alter fun _ (hm : Workable _) => { hm with }

theorem print (line : String) (toStderr : Bool) : Works E (Machine.print line toStderr) := by
  refine .alter fun m hm => ?_
  cases toStderr <;> exact { hm with }

theorem frame (h : ∀ d, E (.defect d)) : Works E Machine.frame Frame.Workable where
  ok {m m' f} hm run := by
    obtain ⟨rfl, rest, stack⟩ := frame_eq_ok_iff.1 run
    exact ⟨hm, hm.stack f (stack ▸ List.mem_cons_self)⟩
  error {m m' e} hm run := by
    obtain ⟨rfl, -, rfl⟩ := frame_eq_error run
    exact ⟨hm, h _⟩

theorem modifyFrame {change : Frame → Frame} (h : ∀ f : Frame, f.Workable → (change f).Workable) :
    Works E (Machine.modifyFrame change) :=
  .alter fun m hm => hm.withStack fun g hg => by
    cases stack : m.stack with
    | nil =>
        rw [stack] at hg
        cases hg
    | cons f rest =>
        rw [stack, List.modifyHead_cons] at hg
        rcases List.mem_cons.1 hg with rfl | hg
        · exact h f (hm.stack f (stack ▸ List.mem_cons_self))
        · exact hm.stack g (stack ▸ List.mem_cons_of_mem _ hg)

theorem push {f : Frame} (h : f.Workable) :
    Works E (modify fun m => { m with stack := f :: m.stack } : Action Machine PUnit) :=
  .alter fun _ hm => hm.withStack (List.forall_mem_cons.2 ⟨h, hm.stack⟩)

end Works

/-! ## Memory and casts -/

theorem works_allocate (size align : Int) (kind : AllocKind) :
    Works Fault.Foreseen (onStore (Store.allocate size align kind)) where
  ok {m m' p} hm run := by
    obtain ⟨mem, journal, made, rfl⟩ := onStore_allocate_eq_ok run
    exact ⟨hm.after (c := .allocate size align kind) (by rw [Memory.after, made]) journal, trivial⟩
  error {m m' f} hm run := by
    obtain ⟨mem, refused, rfl⟩ := onStore_allocate_eq_error run
    have foreseen := Memory.foreseen_allocate hm.width hm.chooser refused
    exact ⟨hm.after (c := .allocate size align kind) (by rw [Memory.after, refused]) _, foreseen⟩

theorem works_deallocate (p : Pointer) (size align : Int) (kind : AllocKind) :
    Works Fault.Foreseen (onStore (Store.deallocate p size align kind)) where
  ok {m m' u} hm run := by
    obtain ⟨mem, journal, freed, rfl⟩ := onStore_deallocate_eq_ok run
    refine ⟨hm.after (c := .deallocate p size align kind) ?_ journal, trivial⟩
    rw [Memory.after, freed, Memory.orSame]
  error {m m' f} hm run := by
    obtain ⟨refused, rfl⟩ := onStore_deallocate_eq_error run
    exact ⟨hm, Memory.foreseen_deallocate _ p size align kind f refused⟩

/-- A change of memory that stores bytes. -/
theorem works_change {g : Memory → Except Fault Memory}
    (h : ∀ mem : Memory, 1 ≤ mem.target.ptrSize → FailsIn Fault.Foreseen (g mem))
    (stores : ∀ {mem mem' : Memory}, g mem = .ok mem' →
      ∃ p data align, mem.store p data align = .ok mem') :
    Works Fault.Foreseen (onStore (Store.change g)) where
  ok {m m' u} hm run := by
    obtain ⟨mem, changed, rfl⟩ := onStore_change_eq_ok_iff.1 run
    obtain ⟨p, data, align, stored⟩ := stores changed
    refine ⟨hm.after (c := .store p data align) ?_ m.store.journal, trivial⟩
    rw [Memory.after, stored, Memory.orSame]
  error {m m' f} hm run := by
    obtain ⟨refused, rfl⟩ := onStore_change_eq_error_iff.1 run
    exact ⟨hm, h _ hm.width f refused⟩

variable {place : PlaceTy}

theorem works_typedLoad (p : Pointer) (h : place.Workable) :
    Works Fault.Foreseen (onStore (Store.typedLoad p place)) :=
  .ask fun _ width => Memory.foreseen_typedLoad width h

theorem works_typedStore (p : Pointer) (v : Value) (h : place.Workable) :
    Works Fault.Foreseen (onStore (Store.typedStore p v place)) :=
  works_change (fun _ width => Memory.foreseen_typedStore width h v) fun stored => by
    obtain ⟨data, -, stored⟩ := Memory.typedStore_eq_ok_iff.1 stored
    exact ⟨_, data, _, stored⟩

theorem works_deinit (p : Pointer) (h : place.Workable) :
    Works Fault.Foreseen (onStore (Store.deinit p place)) :=
  works_change (fun _ _ => Memory.foreseen_deinit h) fun stored => ⟨_, _, _, stored⟩

theorem works_offsetInBounds (p : Pointer) (offset : Int) :
    Works Fault.Foreseen (Machine.offsetInBounds p offset) :=
  .ask fun _ width => Memory.foreseen_offsetInBounds width offset

theorem works_expose (p : Pointer) : Works Fault.Foreseen (onStore (Store.expose p)) where
  ok {m m' n} hm run := by
    obtain ⟨journal, exposed⟩ := onStore_expose p m
    obtain ⟨-, rfl⟩ := Prod.mk.inj (exposed.symm.trans run)
    have same : (m.store.casts.expose p).predictor = m.store.casts.predictor := by
      unfold Casts.expose
      split <;> rfl
    exact ⟨{ hm with predictor := same ▸ hm.predictor }, trivial⟩
  error {m m' f} hm run := by
    obtain ⟨journal, exposed⟩ := onStore_expose p m
    obtain ⟨⟨⟩, -⟩ := Prod.mk.inj (exposed.symm.trans run)

/-- Casting an address to a pointer fails in foreseen ways only, if the predictor does. -/
theorem foreseen_castAnswer (predictor : m.store.casts.predictor.Foreseeable) (addr : Int) :
    FailsIn Fault.Foreseen (m.castAnswer addr) := by
  have predicted : FailsIn Fault.Foreseen
      (m.store.casts.predictor m.store.casts.asked (m.castQuery addr)) := by
    refine predictor _ _ (fun id => m.store.memory.foreseen_covers id addr true) ?_
    rintro _ ⟨⟩ id
    exact m.store.memory.foreseen_covers id addr false
  refine .bind predicted fun provenance _ => ?_
  cases provenance with
  | none => exact .pure _
  | some id => exact .bind (.require trivial) fun _ _ => .pure _

theorem works_fromAddr (addr : Int) : Works Fault.Foreseen (Machine.fromAddr addr) where
  ok {m m' p} hm run := by
    obtain ⟨-, journal, rfl⟩ := fromAddr_eq_ok run
    exact ⟨{ hm with }, trivial⟩
  error {m m' f} hm run := by
    obtain ⟨refused, rfl⟩ := fromAddr_eq_error run
    exact ⟨{ hm with }, foreseen_castAnswer hm.predictor addr f refused⟩

/-! ## Operators -/

/-- The type that comes with an answer is workable, with all its parts. -/
def WorkableTy (a : Value × Ty) : Prop := a.2.All Ty.Workable

/-- An answer about a place: the place is workable. -/
def WorkablePlace (a : Pointer × PlaceTy) : Prop := a.2.Workable

theorem sized_of_intOperand {a : Int × IntTy} (h : ty.All Ty.Workable)
    (found : intOperand v ty = .ok a) : 1 ≤ a.2.size := by
  unfold intOperand at found
  split at found
  · obtain rfl := Except.ok.inj found
    exact h.here.int_sized
  · cases found

/-- An integer operand is one of a type of at least one byte. -/
theorem works_intOperand (v : Value) (h : ty.All Ty.Workable) :
    Works Fault.Foreseen (Action.ofExcept (intOperand v ty)) fun a => 1 ≤ a.2.size :=
  Action.Keeps.mono (Works.ofExcept (failsIn_intOperand v ty)) fun _ found =>
    sized_of_intOperand h found

theorem works_wrap {t : IntTy} (sized : 1 ≤ t.size) (n : Int) :
    Works Fault.Foreseen (Action.ofExcept (t.wrap n)) :=
  Action.Keeps.mono (Works.ofExcept (t.failsIn_wrap_of_sized sized n)) fun _ _ => trivial

theorem works_evalUnary (op : UnaryOp) (v : Value) (h : ty.All Ty.Workable)
    (written : ∀ t ∈ op.ty?, t.All Ty.Workable) :
    Works Fault.Foreseen (evalUnary op v ty) WorkableTy := by
  cases op with
  | neg | bitNot =>
      -- the type of the operand, which is that of the result, has bytes to wrap around in
      exact .bind (works_intOperand v h) fun a sized =>
        .seq (works_wrap sized _) fun _ => .answer h
  | not =>
      exact .bind (.ofExcept (failsIn_boolOperand v)) fun _ _ => .answer Ty.all_workable_bool
  | cast t =>
      have target := written _ rfl
      exact .bind (works_intOperand v h) fun a _ =>
        .seq (works_wrap target.here.int_sized _) fun _ => .answer target
  | transmute t =>
      have target := written t rfl
      refine .bind .getTarget fun _ width => ?_
      exact .bind (.ofExcept (foreseen_transmute width h.every target.every v))
        fun _ _ => .answer target
  | expose =>
      cases v with
      | ptr p =>
          exact .seq (works_expose p) fun _ => .bind .getTarget fun _ width =>
            .answer (Ty.all_workable_int width)
      | _ => exact .throw trivial
  | fromAddr t =>
      have target := written t rfl
      refine .bind (works_intOperand v h) fun a _ => .bind .getTarget fun tgt width => ?_
      refine .bind (.ofExcept (tgt.failsIn_addrInBounds width _)) fun _ _ => ?_
      refine .seq (.need trivial) fun _ => .seq (works_fromAddr _) fun q => ?_
      refine .bind (.ofExcept (Ty.foreseen_wellFormed width target.every _)) fun _ _ => ?_
      exact .seq (.need trivial) fun _ => .answer target

theorem workableTy_of_relOp {op : RelOp} {a : Value × Ty} (h : op.eval l r = .ok a) :
    WorkableTy a := by
  obtain ⟨_, -, h⟩ := bind_eq_ok_iff.1 h
  obtain ⟨_, -, h⟩ := bind_eq_ok_iff.1 h
  split at h
  · obtain rfl := Except.ok.inj h
    exact Ty.all_workable_int (Int.le_refl 1)
  · obtain rfl := Except.ok.inj h
    exact Ty.all_workable_bool

theorem works_evalBinary (op : BinaryOp) (l r : Value) (hl : lt.All Ty.Workable)
    (hr : rt.All Ty.Workable) : Works Fault.Foreseen (evalBinary op l lt r rt) WorkableTy := by
  cases op with
  | int op =>
      refine .bind (works_intOperand l hl) fun a sized => .bind (works_intOperand r hr) fun b _ => ?_
      exact .bind (.ofExcept (op.foreseen_eval sized _ _)) fun _ _ =>
        .answer (Ty.all_workable_int sized)
  | rel op =>
      exact Action.Keeps.mono (Works.ofExcept (failsIn_relOp op l r)) fun _ => workableTy_of_relOp
  | bool op =>
      exact .bind (.ofExcept (failsIn_boolOperand l)) fun _ _ =>
        .bind (.ofExcept (failsIn_boolOperand r)) fun _ _ => .answer Ty.all_workable_bool
  | offset inbounds =>
      cases l with
      | ptr p =>
          refine .bind (works_intOperand r hr) fun a _ => ?_
          cases inbounds with
          | true => exact .seq (works_offsetInBounds p _) fun _ => .answer hl
          | false =>
              exact .bind .getTarget fun _ width =>
                .bind (.ofExcept (p.failsIn_wrappingOffset width _)) fun _ _ => .answer hl
      | _ => exact .throw trivial

/-! ## Expressions -/

theorem works_ofExcept_localTy {f : Frame} (h : f.Workable) (name : String) :
    Works Fault.Foreseen (Action.ofExcept (f.localTy name)) PlaceTy.Workable := by
  unfold Frame.localTy
  cases found : f.function.locals.find? name with
  | none => exact .throw trivial
  | some place => exact .answer (h.function.locals _ (Table.mem_entries_of_find? found))

theorem works_localPlace (name : String) : Works Fault.Foreseen (localPlace name) WorkablePlace := by
  refine .bind (.frame fun _ => trivial) fun f hf => ?_
  cases f.locals.find? name with
  | none => exact .throw trivial
  | some p => exact .bind (works_ofExcept_localTy hf name) fun _ place => .answer place

/-- The place that a projection leads to. -/
theorem PlaceTy.Workable.part (h : place.Workable) {part : Ty} (workable : part.All Ty.Workable)
    (offset : Int) : PlaceTy.Workable { ty := part, align := restrictAlign place.align offset } :=
  ⟨one_le_restrictAlign h.aligned offset, workable⟩

mutual

/-- A value comes with a workable type. -/
theorem works_evalValue : ∀ e : ValueExpr, e.Workable →
    Works Fault.Foreseen (evalValue e) WorkableTy
  | .constant v ty, h => by
      rw [evalValue]
      exact .answer h
  | .function name, _ => by
      rw [evalValue]
      refine .bind Action.Keeps.get fun m _ => ?_
      cases m.functions.find? name with
      | none => exact .throw trivial
      | some addr => exact .answer Ty.all_workable_fn
  | .tuple parts ty, h => by
      rw [evalValue]
      refine .bind (.ofExcept ty.failsIn_requireTuple) fun _ _ => ?_
      exact .bind (works_evalAll parts h.2) fun _ _ => .answer h.1
  | .union field operand ty, h => by
      rw [evalValue]
      refine .bind (works_evalValue operand h.2) fun a _ => .bind .getTarget fun _ width => ?_
      exact .bind (.ofExcept (ty.foreseen_ofField width h.1 field _)) fun _ _ => .answer h.1
  | .variant d payload ty, h => by
      rw [evalValue]
      refine .bind (works_evalValue payload h.2) fun a _ => ?_
      exact .bind (.ofExcept (failsIn_elementAt ty.variants d trivial)) fun _ _ => .answer h.1
  | .discriminant place, h => by
      rw [evalValue]
      refine .bind (works_evalPlace place h) ?_
      rintro ⟨p, ⟨ty, align⟩⟩ workable
      cases ty with
      | enum e =>
          have checked (mem : Memory) := mem.foreseen_checkPtr p e.size workable.aligned
          refine .seq (.ask fun mem _ => .load (checked mem)) fun data => ?_
          refine .bind .getTarget fun target _ => ?_
          cases e.discriminator.decode target data with
          | none => exact .throw trivial
          | some d => exact .answer workable.ty.discriminant
      | _ => exact .throw trivial
  | .load place destructive, h => by
      rw [evalValue]
      refine .bind (works_evalPlace place h) fun a workable => ?_
      refine .seq (works_typedLoad a.1 workable) fun v => ?_
      cases destructive with
      | true => exact .seq (works_deinit a.1 workable) fun _ => .answer workable.ty
      | false => exact .answer workable.ty
  | .addrOf place ty, h => by
      rw [evalValue]
      exact .bind (works_evalPlace place h.2) fun _ _ => .answer h.1
  | .createRef place ty, h => by
      rw [evalValue]
      refine .bind (works_evalPlace place h.2) fun a _ => .bind .getTarget fun _ width => ?_
      refine .bind (.ofExcept (Ty.foreseen_wellFormed width h.1.every _)) fun _ _ => ?_
      exact .seq (.need trivial) fun _ => .answer h.1
  | .unary op operand, h => by
      rw [evalValue]
      exact .bind (works_evalValue operand h.2) fun a workable =>
        works_evalUnary op a.1 workable h.1
  | .binary op left right, h => by
      rw [evalValue]
      exact .bind (works_evalValue left h.1) fun a hl =>
        .bind (works_evalValue right h.2) fun b hr => works_evalBinary op a.1 b.1 hl hr

/-- A place keeps an alignment of at least one along all projections. -/
theorem works_evalPlace : ∀ e : PlaceExpr, e.Workable →
    Works Fault.Foreseen (evalPlace e) WorkablePlace
  | .var name, _ => by
      rw [evalPlace]
      exact works_localPlace name
  | .deref operand place, h => by
      rw [evalPlace]
      refine .bind (works_evalValue operand h.2) ?_
      rintro ⟨v, _⟩ _
      cases v with
      | ptr p => exact .answer h.1
      | _ => exact .throw trivial
  | .field root i, h => by
      rw [evalPlace]
      refine .bind (works_evalPlace root h) ?_
      rintro ⟨p, ⟨ty, align⟩⟩ workable
      refine .bind (.ofExcept (ty.failsIn_fieldAt i)) fun f found => ?_
      refine .seq (works_offsetInBounds p _) fun q => .answer ?_
      exact PlaceTy.Workable.part workable (workable.ty.of_fieldAt found) f.offset
  | .index root i, h => by
      rw [evalPlace]
      refine .bind (works_evalPlace root h.1) ?_
      rintro ⟨p, ⟨ty, align⟩⟩ workable
      refine .bind (works_evalValue i h.2) fun a _ => .bind .getTarget fun target _ => ?_
      refine .bind (.ofExcept (ty.failsIn_elementOffset _ a.1)) ?_
      rintro ⟨distance, elem, size⟩ found
      refine .seq (works_offsetInBounds p _) fun q => .answer ?_
      exact PlaceTy.Workable.part workable (workable.ty.of_elementOffset found) size
  | .downcast root d, h => by
      rw [evalPlace]
      refine .bind (works_evalPlace root h) ?_
      rintro ⟨p, ⟨ty, align⟩⟩ workable
      cases ty with
      | enum e =>
          refine .bind (.ofExcept (failsIn_elementAt e.variants d trivial)) fun var found => .answer ?_
          exact ⟨workable.aligned, workable.ty.of_variantAt found⟩
      | _ => exact .throw trivial

theorem works_evalAll : ∀ es : List ValueExpr, ValueExpr.allWorkable es →
    Works Fault.Foreseen (evalAll es)
  | [], _ => by
      rw [evalAll]
      exact .nothing
  | e :: es, h => by
      rw [evalAll]
      exact .bind (works_evalValue e h.1) fun _ _ => .seq (works_evalAll es h.2) fun _ => .nothing

end

end Machine

end AbstractMachine
