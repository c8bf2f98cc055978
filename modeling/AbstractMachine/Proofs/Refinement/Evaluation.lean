/-
# AbstractMachine.Proofs.Refinement.Evaluation — evaluating in more defined memory

Two machines of the same program are ordered if they stand at the same point of it with the same
memory, except that contents are more defined in the second one, the place that waits for a result
may be found by a pointer with more provenance, and more may be exposed. What a program without
casts from integers to pointers evaluates in the first it evaluates in the second, and the value it
finds there is above the first one. The casts have to be excluded, since what they yield depends on
what was exposed.

The values of expressions are followed along the text of the evaluator, with the rules for two runs.
Of all faults only a panic and the end of the program have to be found again, and no evaluation has
those.
-/
import Mathlib.Data.Option.Basic
import AbstractMachine.Proofs.Fragment
import AbstractMachine.Proofs.Machine.Operations
import AbstractMachine.Proofs.Provenance.Carried
import AbstractMachine.Proofs.Refinement.Memory

namespace AbstractMachine

/-- The part of the language that turns no address into a pointer. -/
def Fragment.castFree : Fragment where
  value e := ∀ ty operand, e ≠ .unary (.fromAddr ty) operand
  intrinsic op := op ≠ .withExposedProvenance

/-- The same frame, of which the place that waits for the result may be found by a pointer with more
provenance. -/
structure Frame.Le (f g : Frame) : Prop where
  name : g.name = f.name
  function : g.function = f.function
  locals : g.locals = f.locals
  block : g.block = f.block
  index : g.index = f.index
  result : Option.Rel PlaceLe f.result g.result

/-- The second machine stands where the first one does, with memory at least as defined. -/
structure Machine.Le (m n : Machine) : Prop where
  program : n.program = m.program
  functions : n.functions = m.functions
  stack : List.Forall₂ Frame.Le m.stack n.stack
  memory : m.store.memory.Le n.store.memory
  exposed : ∀ id ∈ m.store.casts.exposed, id ∈ n.store.casts.exposed
  stdout : n.stdout = m.stdout
  stderr : n.stderr = m.stderr
  steps : n.steps = m.steps
  terminated : n.terminated = m.terminated

/-- The code that a machine may come to, in its program and its frames, is in a fragment. -/
structure Machine.In (L : Fragment) (m : Machine) : Prop where
  program : m.program.In L
  frames : ∀ f ∈ m.stack, f.function.In L

/-- Ordered frames that run code without casts. -/
def Frame.Related (f g : Frame) : Prop :=
  f.Le g ∧ f.function.In .castFree

/-- Ordered machines that run code without casts. -/
def Machine.Related (m n : Machine) : Prop :=
  m.Le n ∧ m.In .castFree

namespace Frame.Le

variable {f g : Frame}

theorem refl (f : Frame) : f.Le f := by
  refine ⟨rfl, rfl, rfl, rfl, rfl, ?_⟩
  cases f.result with
  | none => exact .none
  | some r => exact .some ⟨⟨rfl, provenanceLe_refl _⟩, rfl⟩

theorem localTy (h : f.Le g) (name : String) : g.localTy name = f.localTy name := by
  rw [Frame.localTy, Frame.localTy, h.function, h.name]

theorem currentBlock (h : f.Le g) : Machine.currentBlock g = Machine.currentBlock f := by
  rw [Machine.currentBlock, Machine.currentBlock, h.block, h.name, h.function]

end Frame.Le

namespace Machine

variable {m n : Machine} {p q : Pointer} {v w : Value} {place : PlaceTy} {α β γ : Type}

theorem Related.frames (h : Related m n) : List.Forall₂ Frame.Related m.stack n.stack :=
  ((List.forall₂_and_left _ _).2 ⟨h.2.frames, h.1.stack⟩).imp fun _ _ related => related.symm

/-- The frames of ordered machines may be exchanged for others that are ordered. -/
theorem Related.withStack (h : Related m n) {fs gs : List Frame}
    (frames : List.Forall₂ Frame.Related fs gs) :
    Related { m with stack := fs } { n with stack := gs } := by
  obtain ⟨code, below⟩ := (List.forall₂_and_left _ _).1 (frames.imp fun _ _ => And.symm)
  exact ⟨{ h.1 with stack := below }, h.2.program, code⟩

/-- Begun in ordered machines, the second action follows the first one: it succeeds where that does,
and ends the program where that does. -/
abbrev Follows (V : α → β → Prop) (x : Action Machine α) (y : Action Machine β) : Prop :=
  Action.Simulates Related Fault.Ends V x y

/-- An answer that is not looked at. -/
abbrev anyhow : α → β → Prop := fun _ _ => True

namespace Follows

variable {V : α → β → Prop}

/-- A fault that ends no program. -/
theorem fault {e : Fault} {y : Action Machine β} (h : e.Ordinary) :
    Follows V (throw e : Action Machine α) y :=
  .throw_left h.not_ends

theorem ofExcept {e : Except Fault α} {d : Except Fault β} (fails : FailsIn Fault.Ordinary e)
    (h : Improves V e d) : Follows V (Action.ofExcept e) (Action.ofExcept d) :=
  Action.Simulates.ofExcept (fails.mono fun _ h => h.not_ends) h

/-- An answer that does not depend on the machine is given in both. -/
theorem bindExcept {e : Except Fault γ} {k : γ → Action Machine α} {k' : γ → Action Machine β}
    (fails : FailsIn Fault.Ordinary e) (h : ∀ c, e = .ok c → Follows V (k c) (k' c)) :
    Follows V (Action.ofExcept e >>= k) (Action.ofExcept e >>= k') := by
  cases e with
  | error f => exact fault (fails f rfl)
  | ok c => exact h c rfl

theorem need {c : Bool} {e : Fault} (h : e.Ordinary) :
    Follows anyhow (Action.need c e) (Action.need c e) :=
  (Action.Simulates.need h.not_ends).mono fun _ _ _ => trivial

/-- A check that does not depend on the machine is made in both. -/
theorem bindNeed {c : Bool} {e : Fault} {x : Action Machine α} {y : Action Machine β}
    (h : e.Ordinary) (follows : Follows V x y) :
    Follows V (Action.need c e >>= fun _ => x) (Action.need c e >>= fun _ => y) :=
  (need h).bind fun _ _ _ => follows

theorem getTarget : Follows Same getTarget getTarget :=
  Action.Simulates.get.bind fun _ _ related => .pure related.1.memory.target

/-! ## Memory -/

variable {f : Memory → Except Fault α} {g : Memory → Except Fault β}

theorem ask (fails : ∀ mem : Memory, FailsIn (mem.Refuses fun _ => True) (f mem))
    (h : ∀ mem mem' : Memory, mem.Le mem' → Improves V (f mem) (g mem')) :
    Follows V (onStore (Store.ask f)) (onStore (Store.ask g)) :=
  .of_fails (fails_ask fails) fun {m m' n a} related run => by
    obtain ⟨ha, rfl⟩ := Prod.mk.inj run
    obtain ⟨b, hb, answer⟩ := h m.store.memory n.store.memory related.1.memory ha
    exact ⟨b, n, congrArg (·, n) hb, answer, related⟩

theorem change {f g : Memory → Except Fault Memory}
    (fails : ∀ mem : Memory, FailsIn (mem.Refuses fun _ => True) (f mem))
    (h : ∀ mem mem' : Memory, mem.Le mem' → Improves Memory.Le (f mem) (g mem')) :
    Follows anyhow (onStore (Store.change f)) (onStore (Store.change g)) :=
  .of_fails (fails_change fails) fun {m m' n u} related run => by
    obtain ⟨mem, changed, rfl⟩ := onStore_change_eq_ok_iff.1 run
    obtain ⟨le, code⟩ := related
    obtain ⟨mem', changed', below⟩ := h m.store.memory n.store.memory le.memory changed
    exact ⟨(), _, onStore_change_of_ok changed', trivial, { le with memory := below },
      code.program, code.frames⟩

theorem load {size align : Int} (le : p.Le q) :
    Follows (fun bs cs => AbsByte.leAll bs cs = true) (onStore (Store.load p size align))
      (onStore (Store.load q size align)) :=
  .ask (fun _ => Memory.failsIn_load fun _ _ => trivial) fun _ _ h => Memory.load_improves h le

theorem typedLoad (le : p.Le q) :
    Follows (fun v w => v.le w = true) (onStore (Store.typedLoad p place))
      (onStore (Store.typedLoad q place)) :=
  .ask (fun _ => Memory.failsIn_typedLoad fun _ _ => trivial) fun _ _ h =>
    Memory.typedLoad_improves h le

theorem typedStore (le : p.Le q) (value : v.le w = true) :
    Follows anyhow (onStore (Store.typedStore p v place)) (onStore (Store.typedStore q w place)) :=
  .change (fun _ => Memory.failsIn_typedStore fun _ _ => trivial) fun _ _ h =>
    Memory.typedStore_improves h le value

theorem deinit (le : p.Le q) :
    Follows anyhow (onStore (Store.deinit p place)) (onStore (Store.deinit q place)) :=
  .change (fun _ => Memory.failsIn_store fun _ _ => trivial) fun _ _ h =>
    Memory.deinit_improves h le

theorem offsetInBounds (le : p.Le q) {offset : Int} :
    Follows Pointer.Le (offsetInBounds p offset) (Machine.offsetInBounds q offset) :=
  .ask (fun _ => Memory.failsIn_offsetInBounds fun _ _ => trivial) fun _ _ h =>
    Memory.offsetInBounds_improves h le

theorem retagValue {ty : Ty} (value : v.le w = true) :
    Follows (fun v w => v.le w = true) (onStore (Store.ask fun mem => mem.retagValue ty v))
      (onStore (Store.ask fun mem => mem.retagValue ty w)) :=
  .ask (fun _ => Memory.failsIn_retagValue ty fun _ _ => trivial) fun _ _ h =>
    Memory.retagValue_improves h value

/-- The address of a pointer is that of the one above it, whose name is exposed in the second
machine if the first one's is. -/
theorem expose (le : p.Le q) :
    Follows Same (onStore (Store.expose p)) (onStore (Store.expose q)) where
  ok {m m' n a} related run := by
    obtain ⟨journal, exposed⟩ := onStore_expose p m
    obtain ⟨journal', exposed'⟩ := onStore_expose q n
    obtain ⟨ha, rfl⟩ := Prod.mk.inj (exposed.symm.trans run)
    obtain rfl := Except.ok.inj ha
    refine ⟨q.addr, _, exposed', le.1.symm, ?_, ⟨related.2.program, related.2.frames⟩⟩
    refine { related.1 with exposed := fun id hid => ?_ }
    rw [Casts.mem_exposed_expose] at hid ⊢
    exact hid.imp (related.1.exposed id) le.named
  error {m m' n e} _ run _ := by
    obtain ⟨journal, exposed⟩ := onStore_expose p m
    obtain ⟨⟨⟩, -⟩ := Prod.mk.inj (exposed.symm.trans run)

/-! ## Frames -/

/-- The innermost frames are ordered, and run code without casts. -/
theorem frame : Follows Frame.Related frame Machine.frame := by
  refine .of_fails (fun m m' e run => ?_) fun {m m' n f} related run => ?_
  · obtain ⟨-, -, rfl⟩ := frame_eq_error run
    exact not_false
  · obtain ⟨rfl, rest, stack⟩ := frame_eq_ok_iff.1 run
    obtain ⟨g, rest', top, -, stack'⟩ := List.forall₂_cons_left_iff.1 (stack ▸ related.frames)
    exact ⟨g, n, frame_eq_ok_iff.2 ⟨rfl, rest', stack'⟩, top, related⟩

end Follows

/-! ## Operators -/

theorem follows_evalUnary (op : UnaryOp) (notCast : ∀ ty, op ≠ .fromAddr ty) (le : v.le w = true)
    (ty : Ty) : Follows TypedLe (evalUnary op v ty) (evalUnary op w ty) := by
  have operand : Follows Same (Action.ofExcept (intOperand v ty))
      (Action.ofExcept (intOperand w ty)) :=
    .ofExcept (failsIn_intOperand v ty) (intOperand_improves le)
  have wrapped (t : IntTy) (k : Int) (ty : Ty) : Follows TypedLe
      (do return (.int (← Action.ofExcept (t.wrap k)), ty))
      (do return (.int (← Action.ofExcept (t.wrap k)), ty)) :=
    .bindExcept (t.failsIn_wrap k) fun _ _ => .pure ⟨Value.le_refl _, rfl⟩
  unfold evalUnary
  cases op with
  | neg | bitNot | cast t =>
      exact operand.bindSame fun a => wrapped _ _ _
  | not =>
      refine (Follows.ofExcept (failsIn_boolOperand v) (boolOperand_improves le)).bindSame ?_
      exact fun b => .pure ⟨Value.le_refl _, rfl⟩
  | transmute t =>
      refine Follows.getTarget.bindSame fun target => ?_
      refine (Follows.ofExcept (failsIn_transmute _ v ty t) (transmute_improves le)).bind ?_
      exact fun _ _ below => .pure ⟨below, rfl⟩
  | expose =>
      cases v with
      | ptr p =>
          obtain ⟨q, rfl, below⟩ := Value.ptr_le_iff.1 le
          refine (Follows.expose below).bindSame fun addr => ?_
          exact Follows.getTarget.bindSame fun target => .pure ⟨Value.le_refl _, rfl⟩
      | _ => exact Follows.fault trivial
  | fromAddr t => exact absurd rfl (notCast t)

theorem follows_evalBinary (op : BinaryOp) {v' w' : Value} (left : v.le w = true)
    (right : v'.le w' = true) (lt rt : Ty) :
    Follows TypedLe (evalBinary op v lt v' rt) (evalBinary op w lt w' rt) := by
  have operand {v w : Value} (le : v.le w = true) (ty : Ty) : Follows Same
      (Action.ofExcept (intOperand v ty)) (Action.ofExcept (intOperand w ty)) :=
    .ofExcept (failsIn_intOperand v ty) (intOperand_improves le)
  unfold evalBinary
  cases op with
  | int op =>
      refine (operand left lt).bindSame fun l => (operand right rt).bindSame fun r => ?_
      exact Follows.bindExcept (failsIn_intBinOp op _ _ _) fun _ _ => .pure ⟨Value.le_refl _, rfl⟩
  | rel op =>
      refine Follows.ofExcept (failsIn_relOp op v v') ((relOp_improves op left right).mono ?_)
      rintro a _ rfl
      exact ⟨Value.le_refl _, rfl⟩
  | bool op =>
      refine (Follows.ofExcept (failsIn_boolOperand v) (boolOperand_improves left)).bindSame ?_
      intro l
      refine (Follows.ofExcept (failsIn_boolOperand v') (boolOperand_improves right)).bindSame ?_
      exact fun r => .pure ⟨Value.le_refl _, rfl⟩
  | offset inbounds =>
      cases v with
      | ptr p =>
          obtain ⟨q, rfl, below⟩ := Value.ptr_le_iff.1 left
          refine (operand right rt).bindSame fun r => ?_
          cases inbounds with
          | true =>
              exact (Follows.offsetInBounds below).bind fun _ _ moved => .pure
                ⟨Value.ptr_le_ptr moved, rfl⟩
          | false =>
              refine Follows.getTarget.bindSame fun target => ?_
              refine (Follows.ofExcept (failsIn_wrappingOffset p _ _)
                (wrappingOffset_improves below)).bind fun _ _ moved => .pure ?_
              exact ⟨Value.ptr_le_ptr moved, rfl⟩
      | _ => exact Follows.fault trivial

/-! ## Expressions -/

theorem follows_localPlace (name : String) :
    Follows PlaceLe (localPlace name) (localPlace name) := by
  refine Follows.frame.bind fun f g ⟨le, _⟩ => ?_
  rw [le.locals, le.localTy]
  cases f.locals.find? name with
  | none => exact Follows.fault trivial
  | some p =>
      refine Follows.bindExcept (f.failsIn_localTy name) fun place _ => .pure ⟨?_, rfl⟩
      exact ⟨rfl, provenanceLe_refl _⟩

mutual

/-- The value of an expression in the second machine is above that in the first one. -/
theorem follows_evalValue : ∀ e : ValueExpr, e.In .castFree →
    Follows TypedLe (evalValue e) (evalValue e)
  | .constant v ty, _ => by
      rw [evalValue]
      exact .pure ⟨Value.le_refl v, rfl⟩
  | .function name, _ => by
      rw [evalValue]
      refine Action.Simulates.get.bind fun m n related => ?_
      rw [related.1.functions]
      cases m.functions.find? name with
      | none => exact Follows.fault trivial
      | some addr => exact .pure ⟨Value.le_refl _, rfl⟩
  | .tuple parts ty, h => by
      rw [evalValue]
      refine Follows.bindExcept ty.failsIn_requireTuple fun _ _ => ?_
      refine (follows_evalAll parts h.2).bind fun vs ws all => .pure ⟨?_, rfl⟩
      refine Value.tuple_le_iff.2 ⟨_, rfl, ?_⟩
      rw [List.forall₂_map_left_iff, List.forall₂_map_right_iff]
      exact all.imp fun _ _ le => le.1
  | .union field operand ty, h => by
      rw [evalValue]
      refine (follows_evalValue operand h.2).bind fun (v, _) (w, _) le => ?_
      refine Follows.getTarget.bindSame fun target => ?_
      refine (Follows.ofExcept (ty.failsIn_ofField _ field v) (ofField_improves le.1)).bind ?_
      exact fun _ _ below => .pure ⟨below, rfl⟩
  | .variant d payload ty, h => by
      rw [evalValue]
      refine (follows_evalValue payload h.2).bind fun (v, _) (w, _) le => ?_
      refine Follows.bindExcept (ty.failsIn_variantAt d) fun _ _ => .pure ⟨?_, rfl⟩
      exact Value.variant_le_iff.2 ⟨w, rfl, le.1⟩
  | .discriminant place, h => by
      rw [evalValue]
      refine (follows_evalPlace place h.2).bind fun (p, ⟨ty, align⟩) (q, _) le => ?_
      obtain ⟨below, rfl⟩ := le
      cases ty with
      | enum e =>
          refine (Follows.load below).bind fun bs cs data => ?_
          refine Follows.getTarget.bindSame fun target => ?_
          cases found : e.discriminator.decode _ bs with
          | none => exact Follows.fault trivial
          | some d =>
              -- A decision that was made is made in the same way where bytes are more defined.
              simp only [Discriminator.decode_of_leAll data found]
              exact .pure ⟨Value.le_refl _, rfl⟩
      | _ => exact Follows.fault trivial
  | .load place destructive, h => by
      rw [evalValue]
      refine (follows_evalPlace place h.2).bind fun (p, place) (q, _) le => ?_
      obtain ⟨below, rfl⟩ := le
      refine (Follows.typedLoad below).bind fun v w value => ?_
      cases destructive with
      | false => exact .pure ⟨value, rfl⟩
      | true => exact (Follows.deinit below).bind fun _ _ _ => .pure ⟨value, rfl⟩
  | .addrOf place ty, h => by
      rw [evalValue]
      refine (follows_evalPlace place h.2).bind fun (p, _) (q, _) le => ?_
      exact .pure ⟨Value.ptr_le_ptr le.1, rfl⟩
  | .createRef place ty, h => by
      rw [evalValue]
      refine (follows_evalPlace place h.2).bind fun (p, _) (q, _) le => ?_
      refine Follows.getTarget.bindSame fun target => ?_
      -- Whether a reference is valid is asked of its address, which is the same.
      rw [← Value.fitAlike_of_le _ (Value.ptr_le_ptr le.1)]
      refine Follows.bindExcept (ty.failsIn_wellFormed _ _) fun valid _ => ?_
      exact Follows.bindNeed trivial (.pure ⟨Value.ptr_le_ptr le.1, rfl⟩)
  | .unary op operand, h => by
      rw [evalValue]
      refine (follows_evalValue operand h.2).bind fun (v, ty) (w, _) le => ?_
      obtain ⟨below, rfl⟩ := le
      exact follows_evalUnary op (fun t same => h.1 t operand (same ▸ rfl)) below _
  | .binary op left right, h => by
      rw [evalValue]
      refine (follows_evalValue left h.2.1).bind fun (l, lt) (l', _) hl => ?_
      refine (follows_evalValue right h.2.2).bind fun (r, rt) (r', _) hr => ?_
      obtain ⟨hl, rfl⟩ := hl
      obtain ⟨hr, rfl⟩ := hr
      exact follows_evalBinary op hl hr _ _

/-- A place in the second machine is found by a pointer above that in the first one. -/
theorem follows_evalPlace : ∀ place : PlaceExpr, place.In .castFree →
    Follows PlaceLe (evalPlace place) (evalPlace place)
  | .var name, _ => by
      rw [evalPlace]
      exact follows_localPlace name
  | .deref operand place, h => by
      rw [evalPlace]
      refine (follows_evalValue operand h).bind fun (v, _) (w, _) le => ?_
      cases v with
      | ptr p =>
          obtain ⟨q, rfl, below⟩ := Value.ptr_le_iff.1 le.1
          exact .pure ⟨below, rfl⟩
      | _ => exact Follows.fault trivial
  | .field root i, h => by
      rw [evalPlace]
      refine (follows_evalPlace root h).bind fun (p, ⟨ty, align⟩) (q, _) le => ?_
      obtain ⟨below, rfl⟩ := le
      refine Follows.bindExcept (ty.failsIn_fieldAt i) fun f _ => ?_
      exact (Follows.offsetInBounds below).bind fun _ _ moved => .pure ⟨moved, rfl⟩
  | .index root i, h => by
      rw [evalPlace]
      refine (follows_evalPlace root h.1).bind fun (p, ⟨ty, align⟩) (q, _) le => ?_
      obtain ⟨below, rfl⟩ := le
      refine (follows_evalValue i h.2).bind fun (v, _) (w, _) le => ?_
      refine Follows.getTarget.bindSame fun target => ?_
      refine (Follows.ofExcept (ty.failsIn_elementOffset _ v)
        (elementOffset_improves le.1)).bindSame fun (distance, elem, size) => ?_
      exact (Follows.offsetInBounds below).bind fun _ _ moved => .pure ⟨moved, rfl⟩
  | .downcast root d, h => by
      rw [evalPlace]
      refine (follows_evalPlace root h).bind fun (p, ⟨ty, align⟩) (q, _) le => ?_
      obtain ⟨below, rfl⟩ := le
      cases ty with
      | enum e =>
          exact Follows.bindExcept (e.failsIn_variantAt d) fun _ _ => .pure ⟨below, rfl⟩
      | _ => exact Follows.fault trivial

theorem follows_evalAll : ∀ es : List ValueExpr, ValueExpr.allIn .castFree es →
    Follows (List.Forall₂ TypedLe) (evalAll es) (evalAll es)
  | [], _ => .pure .nil
  | e :: es, h => by
      rw [evalAll]
      refine (follows_evalValue e h.1).bind fun v w head => ?_
      exact (follows_evalAll es h.2).bind fun vs ws tail => .pure (.cons head tail)

end

end Machine

end AbstractMachine
