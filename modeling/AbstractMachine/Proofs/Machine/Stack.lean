/-
# AbstractMachine.Proofs.Machine.Stack — what a step makes of the stack

An action is begun with a stack, and if it succeeds it has made another one of it, which its answer
may depend on: this is `Turns`. Evaluating makes nothing of the stack, and so the lemmas on
instructions only follow what is done with frames. In the end there are four things that a step can
have done, and they are the cases of `Turn`.

A local that a frame did not have has memory that there was not yet. What is said of a stack may
speak of the machine where all began, to which every later one is compared.

An action that fails may have gone as far as to take a frame away. Whatever comes of a step, the
depth of the stack afterwards is `Near` what it was. Nor does an action ever exchange the predictor,
hide what was exposed, or forget an allocation.
-/
import AbstractMachine.Proofs.Machine.Ownership

namespace AbstractMachine

namespace Machine

/-- How many allocations there are, the dead ones included. -/
abbrev allocated (m : Machine) : Nat :=
  m.store.memory.allocations.length

end Machine

/-- A pointer was made for memory that is not among the first so many allocations. -/
def Pointer.Beyond (p : Pointer) (n : Nat) : Prop :=
  ∃ k : Nat, p.provenance = some ⟨k⟩ ∧ n ≤ k

theorem Pointer.Beyond.mono {p : Pointer} {n n' : Nat} (h : p.Beyond n) (le : n' ≤ n) :
    p.Beyond n' := by
  obtain ⟨k, named, bound⟩ := h
  exact ⟨k, named, Nat.le_trans le bound⟩

namespace Machine

/-! ## Following the stack -/

/-- A stack is at one remove at most from a depth. -/
structure Near (depth : Nat) (stack : List Frame) : Prop where
  notAbove : stack.length ≤ depth + 1
  notBelow : depth ≤ stack.length + 1

theorem Near.of_length_eq {depth : Nat} {stack : List Frame} (h : stack.length = depth) :
    Near depth stack := by
  constructor <;> omega

/-- A machine with numbered memory and with this stack, which has the predictor of an earlier one,
all that was exposed there and all that was allocated. -/
structure Stands (o : Machine) (depth : Nat) (stack : List Frame) (m : Machine) : Prop where
  numbered : m.store.memory.Numbered
  grown : o.allocated ≤ m.allocated
  predictor : m.store.casts.predictor = o.store.casts.predictor
  exposed : ∀ id ∈ o.store.casts.exposed, id ∈ m.store.casts.exposed
  near : Near depth stack
  stack : m.stack = stack

/-- Begun with one stack, an action that succeeds ends with another one. -/
def Turns {α : Type} (o : Machine) (depth : Nat) (before : List Frame) (x : Action Machine α)
    (after : α → List Frame → Prop) : Prop :=
  Action.Meets (Stands o depth before) x (fun a m => ∃ stack, after a stack ∧ Stands o depth stack m)
    fun _ m => Near depth m.stack

/-- An action that leaves the stack alone. -/
abbrev Idles {α : Type} (o : Machine) (depth : Nat) (before : List Frame) (x : Action Machine α) :
    Prop :=
  Turns o depth before x fun _ stack => stack = before

variable {depth : Nat} {before : List Frame} {f : Frame} {rest : List Frame} {o m m' : Machine}
  {α β : Type}

/-- A machine stands as it is. -/
theorem Stands.refl (numbered : m.store.memory.Numbered) : Stands m m.stack.length m.stack m :=
  ⟨numbered, Nat.le_refl _, rfl, fun _ h => h, .of_length_eq rfl, rfl⟩

/-- Another stack, and memory that is numbered as well. -/
theorem Stands.change {stack : List Frame} (h : Stands o depth before m)
    (numbered : m'.store.memory.Numbered) (grown : m.allocated ≤ m'.allocated)
    (casts : m'.store.casts = m.store.casts) (near : Near depth stack) (same : m'.stack = stack) :
    Stands o depth stack m' :=
  ⟨numbered, Nat.le_trans h.grown grown, casts ▸ h.predictor, casts ▸ h.exposed, near, same⟩

namespace Turns

variable {x : Action Machine α} {k : α → Action Machine β} {mid after : α → List Frame → Prop}
  {next : β → List Frame → Prop}

theorem mono (h : Turns o depth before x mid) (sub : ∀ a stack, mid a stack → after a stack) :
    Turns o depth before x after := by
  refine h.consequence (fun _ h => h) ?_ fun _ _ h => h
  rintro a m ⟨stack, mid, stands⟩
  exact ⟨stack, sub a stack mid, stands⟩

theorem bind (hx : Turns o depth before x mid)
    (hk : ∀ a stack, mid a stack → Turns o depth stack (k a) next) :
    Turns o depth before (x >>= k) next := by
  refine Action.Meets.bind hx fun a => ⟨?_, ?_⟩
  · rintro s s' b ⟨stack, mid, stands⟩ run
    exact (hk a stack mid).ok stands run
  · rintro s s' e ⟨stack, mid, stands⟩ run
    exact (hk a stack mid).error stands run

/-- After an action that leaves the stack alone. -/
theorem seq (hx : Idles o depth before x) (hk : ∀ a, Turns o depth before (k a) next) :
    Turns o depth before (x >>= k) next := by
  refine bind hx fun a stack same => ?_
  obtain rfl := same
  exact hk a

theorem pure {a : α} (h : after a before) : Turns o depth before (Pure.pure a) after :=
  Action.Meets.pure fun _ stands => ⟨before, h, stands⟩

theorem nothing {a : α} : Idles o depth before (Pure.pure a : Action Machine α) :=
  .pure rfl

theorem throw {e : Fault} : Turns o depth before (MonadExcept.throw e) after :=
  Action.Meets.throw fun _ stands => stands.stack ▸ stands.near

/-- A question about the machine changes nothing. -/
theorem ask {g : Machine → Except Fault α} : Idles o depth before (Action.ask g) := by
  constructor
  · intro m m' a stands run
    obtain ⟨-, rfl⟩ := Prod.mk.inj run
    exact ⟨before, rfl, stands⟩
  · intro m m' e stands run
    obtain ⟨-, rfl⟩ := Prod.mk.inj run
    exact stands.stack ▸ stands.near

theorem ofExcept {e : Except Fault α} : Idles o depth before (Action.ofExcept e) :=
  ask

theorem need {c : Bool} {e : Fault} : Idles o depth before (Action.need c e) :=
  ask

/-- What had to hold holds where the next action begins. -/
theorem check {c : Bool} {e : Fault} {k : Unit → Action Machine β}
    (hk : c = true → Turns o depth before (k ()) next) :
    Turns o depth before (Action.need c e >>= k) next := by
  cases c with
  | false => exact throw
  | true => exact hk rfl

theorem get : Idles o depth before (MonadState.get : Action Machine Machine) :=
  Action.Meets.get fun _ stands => ⟨before, rfl, stands⟩

theorem getTarget : Idles o depth before Machine.getTarget :=
  seq get fun _ => nothing

/-- Evaluating keeps the outline of a machine, which the stack belongs to. -/
theorem evaluates {U : α → Prop} (h : ∀ m : Machine, m.store.memory.Numbered →
    Evaluates (fun _ => True) m x U) : Idles o depth before x := by
  have stays {m m' : Machine} (stands : Stands o depth before m)
      (evolved : Evolved (fun _ => True) m m') : Stands o depth before m' := by
    have same := congrArg (fun m : Machine => m.store.casts.predictor) evolved.outline
    have same : m'.store.casts.predictor = m.store.casts.predictor := same
    have grown : o.allocated ≤ m'.allocated :=
      Nat.le_trans stands.grown (Nat.le_of_eq (Memory.length_of_outline_eq evolved.memory).symm)
    refine ⟨evolved.numbered stands.numbered, grown, same.trans stands.predictor, ?_, stands.near, ?_⟩
    · exact fun id old => evolved.exposed id (stands.exposed id old)
    · exact evolved.stack.trans stands.stack
  constructor
  · intro m m' a stands run
    obtain ⟨evolved, -⟩ := (h m stands.numbered).ok (.refl fun _ _ => trivial) run
    exact ⟨before, rfl, stays stands evolved⟩
  · intro m m' e stands run
    obtain ⟨evolved, -⟩ := (h m stands.numbered).error (.refl fun _ _ => trivial) run
    have stands := stays stands evolved
    exact stands.stack ▸ stands.near

/-- A change of the stack, if it is a small one. -/
theorem alter {change : Machine → Machine} {stack : List Frame}
    (memory : ∀ m, (change m).store.memory = m.store.memory)
    (casts : ∀ m, (change m).store.casts = m.store.casts)
    (made : ∀ m : Machine, m.stack = before → (change m).stack = stack)
    (near : Near depth before → Near depth stack) :
    Turns o depth before (modify change : Action Machine PUnit) fun _ s => s = stack := by
  refine Action.Meets.modify fun m stands => ⟨stack, rfl, ?_⟩
  have numbered : (change m).store.memory.Numbered := memory m ▸ stands.numbered
  have grown : m.allocated ≤ (change m).allocated :=
    Nat.le_of_eq (congrArg (fun mem : Memory => mem.allocations.length) (memory m).symm)
  exact stands.change numbered grown (casts m) (near stands.near) (made m stands.stack)

theorem note (e : Event) : Idles o depth before (Machine.note e) :=
  .alter (fun _ => rfl) (fun _ => rfl) (fun _ same => same) fun near => near

theorem print (line : String) (toStderr : Bool) :
    Idles o depth before (Machine.print line toStderr) := by
  refine .alter ?_ ?_ ?_ fun near => near <;> intro m <;> cases toStderr <;> first | rfl | exact id

/-- The innermost frame is asked for, and there is one. -/
theorem withFrame {k : Frame → Action Machine β} (hk : Turns o depth (f :: rest) (k f) next) :
    Turns o depth (f :: rest) (Machine.frame >>= k) next := by
  have found (m : Machine) (h : m.stack = f :: rest) : Machine.frame m = (.ok f, m) :=
    frame_eq_ok_iff.2 ⟨rfl, rest, h⟩
  constructor
  · intro m m' b stands run
    rw [Action.apply_bind_of_ok (found m stands.stack)] at run
    exact hk.ok stands run
  · intro m m' e stands run
    rw [Action.apply_bind_of_ok (found m stands.stack)] at run
    exact hk.error stands run

/-- The innermost frame is exchanged. -/
theorem modifyFrame {change : Frame → Frame} :
    Turns o depth (f :: rest) (Machine.modifyFrame change) fun _ stack =>
      stack = change f :: rest := by
  refine .alter (fun _ => rfl) (fun _ => rfl) (fun m stack => ?_) fun near => ?_
  · show m.stack.modifyHead change = change f :: rest
    rw [stack]
    rfl
  · exact ⟨near.notAbove, near.notBelow⟩

/-- What is allocated is memory that there was not yet. -/
theorem allocateBeyond {size align : Int} {kind : AllocKind} :
    Turns o depth before (onStore (Store.allocate size align kind)) fun p stack =>
      stack = before ∧ p.Beyond o.allocated := by
  constructor
  · intro m m' p stands run
    obtain ⟨mem, journal, allocates, rfl⟩ := onStore_allocate_eq_ok run
    obtain ⟨a, made⟩ := Memory.made_of_allocate allocates
    have named : p.provenance = some ⟨m.allocated⟩ := by
      rw [made.base, Allocation.base, made.id]
    have grown : m.allocated ≤ mem.allocations.length := by
      rw [made.allocations, List.length_append]
      exact Nat.le_add_right _ _
    refine ⟨before, ⟨rfl, m.allocated, named, stands.grown⟩, ?_⟩
    exact stands.change (made.numbered stands.numbered) grown rfl stands.near stands.stack
  · intro m m' e stands run
    obtain ⟨mem, -, rfl⟩ := onStore_allocate_eq_error run
    show Near depth m.stack
    exact stands.stack ▸ stands.near

theorem allocate {size align : Int} {kind : AllocKind} :
    Idles o depth before (onStore (Store.allocate size align kind)) :=
  allocateBeyond.mono fun _ _ => And.left

theorem deallocate {p : Pointer} {size align : Int} {kind : AllocKind} :
    Idles o depth before (onStore (Store.deallocate p size align kind)) := by
  constructor
  · intro m m' u stands run
    obtain ⟨mem, journal, freed, rfl⟩ := onStore_deallocate_eq_ok run
    obtain ⟨id, a, -, -, -, -, -, -, -, rfl⟩ := Memory.deallocate_eq_ok_iff.1 freed
    have numbered : (m.store.memory.modify id fun a => { a with live := false }).Numbered :=
      Memory.numbered_modify stands.numbered fun _ => rfl
    refine ⟨before, rfl, stands.change numbered ?_ rfl stands.near stands.stack⟩
    exact Nat.le_of_eq (m.store.memory.length_allocations_modify id _).symm
  · intro m m' e stands run
    obtain ⟨-, rfl⟩ := onStore_deallocate_eq_error run
    exact stands.stack ▸ stands.near

theorem typedLoad {p : Pointer} {place : PlaceTy} :
    Idles o depth before (onStore (Store.typedLoad p place)) :=
  .evaluates fun _ _ => evaluates_typedLoad fun _ _ => trivial

theorem typedStore {p : Pointer} {place : PlaceTy} {v : Value} :
    Idles o depth before (onStore (Store.typedStore p v place)) :=
  .evaluates fun _ numbered =>
    evaluates_typedStore numbered (fun _ _ => trivial) fun _ _ => trivial

theorem deinit {p : Pointer} {place : PlaceTy} :
    Idles o depth before (onStore (Store.deinit p place)) :=
  .evaluates fun _ numbered => evaluates_deinit numbered fun _ _ => trivial

theorem expose {p : Pointer} : Idles o depth before (onStore (Store.expose p)) :=
  .evaluates fun _ _ => Evaluates.expose fun _ _ => trivial

theorem fromAddr (addr : Int) : Idles o depth before (Machine.fromAddr addr) :=
  .evaluates fun _ _ => Evaluates.fromAddr addr

end Turns

/-! ## Expressions -/

theorem idles_evalValue (e : ValueExpr) : Idles o depth before (evalValue e) :=
  .evaluates fun _ numbered => evaluates_evalValue numbered (fun _ _ => trivial)
    (fun _ _ _ _ _ => trivial) e e.in_full

theorem idles_evalPlace (p : PlaceExpr) : Idles o depth before (evalPlace p) :=
  .evaluates fun _ numbered => evaluates_evalPlace numbered (fun _ _ => trivial)
    (fun _ _ _ _ _ => trivial) p p.in_full

theorem idles_evalAll (es : List ValueExpr) : Idles o depth before (evalAll es) :=
  .evaluates fun _ numbered => evaluates_evalAll numbered (fun _ _ => trivial)
    (fun _ _ _ _ _ => trivial) es (ValueExpr.allIn_full es)

/-! ## Statements -/

/-- The life of a local is begun in a frame beside the stack, which has one local more by it, with
memory that there was not yet. -/
theorem turns_beginLocal (g : Frame) (name : String) :
    Turns o depth before (beginLocal g name) fun r stack =>
      stack = before ∧ ∃ p : Pointer, p.Beyond o.allocated ∧
        r.2 = { g with locals := g.locals.insert name p } := by
  refine .seq .need fun _ => .seq .ofExcept fun _ => .seq .getTarget fun _ => ?_
  refine .bind .allocateBeyond ?_
  rintro p _ ⟨rfl, beyond⟩
  exact .pure ⟨rfl, p, beyond, rfl⟩

theorem idles_freeLocal (g : Frame) (name : String) (p : Pointer) :
    Idles o depth before (freeLocal g name p) :=
  .seq .ofExcept fun _ => .seq .getTarget fun _ => .deallocate

theorem idles_freeLocals (g : Frame) (entries : List (String × Pointer)) :
    Idles o depth before (freeLocals g entries) := by
  induction entries with
  | nil => exact .nothing
  | cons e rest ih => exact .seq (idles_freeLocal g e.1 e.2) fun _ => ih

theorem idles_storeTag (p : Pointer) (align : Int) (writes : List TagWrite) :
    Idles o depth before (storeTag p align writes) := by
  induction writes with
  | nil => exact .nothing
  | cons w rest ih =>
      refine .seq (.evaluates fun _ _ => Evaluates.offsetInBounds fun _ _ => trivial) fun q => ?_
      exact .seq .typedStore fun _ => ih

/-- Locals are those that there were, or have memory that there was not yet. -/
def Fresher (n : Nat) (old new : Table String Pointer) : Prop :=
  ∀ name p, new.find? name = some p → old.find? name = some p ∨ p.Beyond n

/-- A statement may make locals live and dead in the innermost frame, and no more. -/
theorem turns_execute (s : Statement) :
    Turns o depth (f :: rest) (execute s) fun _ stack =>
      ∃ locals, Fresher o.allocated f.locals locals ∧ stack = { f with locals } :: rest := by
  have quiet {x : Action Machine Unit} (h : Idles o depth (f :: rest) x) :
      Turns o depth (f :: rest) x fun _ stack =>
        ∃ locals, Fresher o.allocated f.locals locals ∧ stack = { f with locals } :: rest :=
    h.mono fun _ _ same => ⟨f.locals, fun _ _ => .inl, same⟩
  cases s with
  | assign destination source =>
      refine quiet (.seq (idles_evalValue source) fun v => ?_)
      exact .seq (idles_evalPlace destination) fun p => .typedStore
  | finalize place =>
      exact quiet (.seq (idles_evalPlace place) fun p => .seq .typedLoad fun _ => .nothing)
  | live name =>
      refine .withFrame (.bind (turns_beginLocal f name) ?_)
      rintro ⟨_, _⟩ _ ⟨rfl, p, beyond, rfl⟩
      refine Turns.modifyFrame.mono fun _ _ same => ⟨f.locals.insert name p, ?_, same⟩
      intro other q found
      rw [Table.find?_insert] at found
      split at found
      · exact .inr (Option.some.inj found ▸ beyond)
      · exact .inl found
  | dead name =>
      refine .withFrame ?_
      cases f.locals.find? name with
      | none => exact .throw
      | some p =>
          refine .bind .modifyFrame ?_
          rintro _ _ rfl
          refine (idles_freeLocal f name p).mono fun _ _ same => ⟨f.locals.erase name, ?_, same⟩
          intro other q found
          rw [Table.find?_erase] at found
          split at found
          · cases found
          · exact .inl found
  | setDiscriminant place d =>
      refine quiet (.seq (idles_evalPlace place) ?_)
      rintro ⟨p, ⟨ty, align⟩⟩
      cases ty with
      | enum e => exact .seq .ofExcept fun variant => idles_storeTag p align variant.tagger
      | _ => exact .throw
  | deinit place =>
      exact quiet (.seq (idles_evalPlace place) fun p => .deinit)
  | validate place =>
      refine quiet (.seq (idles_evalPlace place) fun p => .seq .typedLoad fun v => ?_)
      exact .seq .ask fun w => .typedStore
  | mention place => exact quiet (.seq (idles_evalPlace place) fun _ => .nothing)

/-! ## Terminators -/

/-- A jump leads the innermost frame to the start of a block that it has. -/
theorem turns_jump (block : String) :
    Turns o depth (f :: rest) (jump block) fun _ stack =>
      f.function.blocks.contains block = true ∧
        stack = { f with block := some block, index := 0 } :: rest :=
  .withFrame (.check fun known => Turns.modifyFrame.mono fun _ _ same => ⟨known, same⟩)

theorem idles_printAll (toStderr : Bool) (arguments : List (Value × Ty)) :
    Idles o depth before (printAll toStderr arguments) := by
  induction arguments with
  | nil => exact .nothing
  | cons a rest ih => exact .seq .ofExcept fun line => .seq (.print line toStderr) fun _ => ih

theorem idles_performIntrinsic (op : IntrinsicOp) (arguments : List (Value × Ty)) :
    Idles o depth before (performIntrinsic op arguments) := by
  unfold performIntrinsic
  split
  · exact .seq (idles_printAll _ _) fun _ => .nothing
  · exact .seq (idles_printAll _ _) fun _ => .nothing
  · exact .throw
  · exact .throw
  · exact .seq .ofExcept fun _ => .seq .ofExcept fun _ => .seq .allocate fun _ => .nothing
  · exact .seq .ofExcept fun _ => .seq .ofExcept fun _ => .seq .ofExcept fun _ =>
      .seq .deallocate fun _ => .nothing
  · exact .seq .ofExcept fun p => .seq .expose fun _ => .seq .getTarget fun _ => .nothing
  · exact .seq .ofExcept fun addr => .seq .getTarget fun _ => .seq .ofExcept fun _ =>
      .seq .need fun _ => .seq (.fromAddr addr) fun _ => .nothing
  · exact .seq .need fun _ => .nothing
  · exact .throw

theorem turns_execIntrinsic (op : IntrinsicOp) (arguments : List ValueExpr)
    (result : Option PlaceExpr) (next : Option String) :
    Turns o depth (f :: rest) (execIntrinsic op arguments result next) fun _ stack =>
      ∃ block, f.function.blocks.contains block = true ∧
        stack = { f with block := some block, index := 0 } :: rest := by
  refine .seq (idles_evalAll arguments) fun vs => .seq ?_ fun place => ?_
  · cases result with
    | none => exact .nothing
    | some p => exact .seq (idles_evalPlace p) fun _ => .nothing
  refine .seq (idles_performIntrinsic op vs) fun a => .seq ?_ fun _ => ?_
  · cases place with
    | none => exact .nothing
    | some r => exact .seq .need fun _ => .typedStore
  · cases next with
    | none => exact .throw
    | some block => exact (turns_jump block).mono fun _ _ jumped => ⟨block, jumped⟩

/-- Passing arguments makes locals live in the callee's frame, which is not on the stack yet. -/
theorem turns_passArguments : ∀ (arguments : List (ValueExpr × ArgAbi))
    (params : List (String × ArgAbi)) (callee : Frame),
    Turns o depth before (passArguments arguments params callee) fun g stack =>
      stack = before ∧ ∃ locals, g = { callee with locals }
  | (e, given) :: arguments, (name, expected) :: params, callee => by
      rw [passArguments]
      refine .seq (idles_evalValue e) fun a => .seq .need fun _ => .seq .ofExcept fun place => ?_
      refine .seq .getTarget fun target => .seq .need fun _ => ?_
      refine .bind (turns_beginLocal callee name) ?_
      rintro ⟨_, _⟩ stack ⟨same, _, -, rfl⟩
      rw [same]
      refine .seq .typedStore fun _ => (turns_passArguments arguments params _).mono ?_
      rintro _ stack ⟨same, locals', rfl⟩
      exact ⟨same, locals', rfl⟩
  | [], params, callee => by
      rw [passArguments_nil]
      exact .pure ⟨rfl, _, rfl⟩
  | a :: arguments, [], callee => by
      rw [passArguments_of_no_params]
      exact .pure ⟨rfl, _, rfl⟩

/-- A new frame stands at the start of its function, and no place waits for its result. -/
theorem turns_newFrame (name : String) :
    Turns o depth before (newFrame name) fun g stack => stack = before ∧
      ∃ function, g = { name, function, block := some function.start } := by
  constructor
  · intro m m' g stands run
    obtain ⟨rfl, function, -, rfl⟩ := newFrame_eq_ok_iff.1 run
    exact ⟨before, ⟨rfl, function, rfl⟩, stands⟩
  · intro m m' e stands run
    obtain ⟨rfl, -⟩ := newFrame_eq_error run
    exact stands.stack ▸ stands.near

theorem turns_push {g : Frame} (deep : before.length = depth) :
    Turns o depth before (modify fun m => { m with stack := g :: m.stack } : Action Machine PUnit)
      fun _ stack => stack = g :: before := by
  refine .alter (fun _ => rfl) (fun _ => rfl) (fun m stack => ?_) fun near => ?_
  · show g :: m.stack = g :: before
    rw [stack]
  · constructor <;> simp only [List.length_cons] <;> omega

/-- A call leads the caller to the start of the block where it will go on, or to none, and puts the
callee's frame on top of it. -/
theorem turns_execCall (callee : ValueExpr) (arguments : List (ValueExpr × ArgAbi))
    (result : PlaceExpr) (resultAbi : ArgAbi) (next : Option String)
    (convention : CallingConvention) (deep : (f :: rest).length = depth) :
    Turns o depth (f :: rest) (execCall callee arguments result resultAbi next convention)
      fun _ stack => ∃ g, stack = g :: { f with block := next, index := 0 } :: rest ∧
        g.block = some g.function.start ∧ g.index = 0 ∧ g.result.isSome = true := by
  refine .seq (idles_evalValue callee) fun a => .seq .ask fun name => ?_
  refine .bind (turns_newFrame name) ?_
  rintro _ _ ⟨rfl, function, rfl⟩
  refine .seq .need fun _ => .seq .need fun _ => .seq .ofExcept fun resultPlace => ?_
  refine .bind (turns_beginLocal _ _) ?_
  rintro ⟨_, _⟩ _ ⟨rfl, _, -, rfl⟩
  refine .seq (idles_evalPlace result) fun r => .seq .need fun _ => .seq .getTarget fun _ => ?_
  refine .seq .need fun _ => .bind (turns_passArguments arguments _ _) ?_
  rintro _ _ ⟨rfl, locals', rfl⟩
  refine .withFrame (.bind .modifyFrame ?_)
  rintro _ _ rfl
  refine .bind (turns_push deep) ?_
  rintro _ _ rfl
  exact (Turns.note _).mono fun _ _ same => ⟨_, same, rfl, rfl, rfl⟩

theorem turns_popFrame (deep : (f :: rest).length = depth) :
    Turns o depth (f :: rest) popFrame fun g stack => g = f ∧ stack = rest := by
  constructor
  · intro m m' g stands run
    obtain ⟨stack, same⟩ := popFrame_eq_ok_iff.1 run
    obtain ⟨rfl, below⟩ := List.cons.inj (stands.stack.symm.trans stack)
    refine ⟨rest, ⟨rfl, rfl⟩, stands.change ?_ ?_ ?_ ?_ below.symm⟩
    · rw [same]
      exact stands.numbered
    · exact Nat.le_of_eq (by rw [same])
    · rw [same]
    · rw [List.length_cons] at deep
      constructor <;> omega
  · intro m m' e stands run
    obtain ⟨rfl, -⟩ := popFrame_eq_error run
    exact stands.stack ▸ stands.near

/-- A return takes the innermost frame away, and there is a caller that has somewhere to go on. -/
theorem turns_execReturn (deep : (f :: rest).length = depth) :
    Turns o depth (f :: rest) execReturn fun _ stack =>
      stack = rest ∧ ∃ caller below, rest = caller :: below ∧ caller.block.isSome = true := by
  refine .bind (turns_popFrame deep) ?_
  rintro f rest ⟨rfl, rfl⟩
  cases f.locals.find? f.function.result with
  | none => exact .throw
  | some p =>
      refine .seq .ofExcept fun place => .seq .typedLoad fun v => .seq ?_ fun _ => ?_
      · cases f.result with
        | none => exact .nothing
        | some r => exact .typedStore
      refine .seq (idles_freeLocals f _) fun _ => .seq (.note _) fun _ => ?_
      constructor
      · intro m m' u stands run
        obtain ⟨rfl, caller, below, stack, goesOn⟩ := resume_eq_ok run
        exact ⟨_, ⟨rfl, caller, below, stands.stack.symm.trans stack, goesOn⟩, stands⟩
      · intro m m' e stands run
        obtain ⟨rfl, -⟩ := resume_eq_error run
        exact stands.stack ▸ stands.near

/-! ## Steps -/

/-- What a step that is made in a frame, at a block, where there are so many allocations, makes of
the stack: a statement is done, or there is none left and the terminator leads to the start of
another block, calls, or returns. -/
inductive Turn (n : Nat) (f : Frame) (block : Block) (rest : List Frame) : List Frame → Prop
  | statement {s locals} (next : block.statements[f.index]? = some s)
      (fresher : Fresher n f.locals locals) :
      Turn n f block rest ({ f with locals, index := f.index + 1 } :: rest)
  | jump {target} (last : block.statements[f.index]? = none)
      (known : f.function.blocks.contains target = true) :
      Turn n f block rest ({ f with block := some target, index := 0 } :: rest)
  | call {callee arguments result resultAbi next convention} {g : Frame}
      (last : block.statements[f.index]? = none)
      (terminator : block.terminator = .call callee arguments result resultAbi next convention)
      (start : g.block = some g.function.start) (first : g.index = 0)
      (awaited : g.result.isSome = true) :
      Turn n f block rest (g :: { f with block := next, index := 0 } :: rest)
  | ret {caller below} (last : block.statements[f.index]? = none)
      (terminator : block.terminator = .ret) (beneath : rest = caller :: below)
      (goesOn : caller.block.isSome = true) : Turn n f block rest rest

theorem turns_instruction {block : Block} (deep : (f :: rest).length = depth) :
    Turns o depth (f :: rest) (instruction f block) fun _ stack =>
      Turn o.allocated f block rest stack := by
  unfold instruction
  cases next : block.statements[f.index]? with
  | some s =>
      refine .bind (turns_execute s) ?_
      rintro _ _ ⟨locals, fresher, rfl⟩
      refine Turns.modifyFrame.mono ?_
      rintro _ _ rfl
      exact .statement next fresher
  | none =>
      have jumps (target : String) :
          Turns o depth (f :: rest) (jump target) fun _ stack =>
            Turn o.allocated f block rest stack := by
        refine (turns_jump target).mono ?_
        rintro _ _ ⟨known, rfl⟩
        exact .jump next known
      cases terminator : block.terminator with
      | goto target => exact jumps target
      | ite condition onTrue onFalse =>
          refine .seq (idles_evalValue condition) ?_
          rintro ⟨v, _⟩
          cases v with
          | bool b => exact jumps _
          | _ => exact .throw
      | switch value cases fallback =>
          refine .seq (idles_evalValue value) ?_
          rintro ⟨v, _⟩
          cases v with
          | int n => exact jumps _
          | _ => exact .throw
      | unreachable => exact .throw
      | call callee arguments result resultAbi then_ convention =>
          refine (turns_execCall callee arguments result resultAbi then_ convention deep).mono ?_
          rintro _ _ ⟨g, rfl, start, first, awaited⟩
          exact .call next terminator start first awaited
      | ret =>
          refine (turns_execReturn deep).mono ?_
          rintro _ _ ⟨rfl, caller, below, beneath, goesOn⟩
          exact .ret next terminator beneath goesOn
      | intrinsic op arguments result then_ =>
          refine (turns_execIntrinsic op arguments result then_).mono ?_
          rintro _ _ ⟨target, known, rfl⟩
          exact .jump next known

/-- What a step that succeeds has made of its machine. -/
theorem turn_of_step {name : String} {block : Block} (numbered : m.store.memory.Numbered)
    (executes : m.Executes f name block) (stack : m.stack = f :: rest)
    (run : step m = (.ok (), m')) :
    Turn m.allocated f block rest m'.stack ∧ Stands m m.stack.length m'.stack m' := by
  have stands : Stands m m.stack.length m.stack (m.begun f name) :=
    (Stands.refl numbered).change numbered (Nat.le_refl _) rfl (.of_length_eq rfl) rfl
  rw [step_of_executes executes] at run
  rw [stack] at stands ⊢
  obtain ⟨_, turn, after⟩ := (turns_instruction rfl).ok stands run
  rw [after.stack]
  exact ⟨turn, after⟩

/-- Whatever comes of a step, it changes the depth of the stack by one at most. -/
theorem near_of_step {answer : Except Fault Unit} (numbered : m.store.memory.Numbered)
    (run : step m = (answer, m')) : Near m.stack.length m'.stack := by
  by_cases made : ∃ f name block, m.Executes f name block
  · obtain ⟨f, name, block, executes⟩ := made
    obtain ⟨rest, stack⟩ := executes.top
    have stands : Stands m m.stack.length m.stack (m.begun f name) :=
      (Stands.refl numbered).change numbered (Nat.le_refl _) rfl (.of_length_eq rfl) rfl
    rw [step_of_executes executes] at run
    rw [stack] at stands ⊢
    cases answer with
    | ok u =>
        obtain ⟨_, -, after⟩ := (turns_instruction rfl).ok stands run
        exact after.stack ▸ after.near
    | error e => exact (turns_instruction rfl).error stands run
  · obtain ⟨d, same⟩ := step_eq_defect_of_not_executes fun f name block executes =>
      made ⟨f, name, block, executes⟩
    obtain ⟨-, rfl⟩ := Prod.mk.inj (same.symm.trans run)
    exact .of_length_eq rfl

/-! ## The beginning -/

theorem idles_placeFunctions (names : List String) :
    Idles o depth before (placeFunctions names) := by
  induction names with
  | nil => exact .nothing
  | cons name rest ih =>
      refine .seq .allocate fun p => .seq ?_ fun _ => ih
      exact .alter (fun _ => rfl) (fun _ => rfl) (fun _ same => same) fun near => near

/-- An execution begins with one frame, at the start of its function, whose result no place waits
for. -/
theorem turns_boot : Turns o 0 [] boot fun _ stack =>
    ∃ f : Frame, stack = [f] ∧ f.result = none ∧ f.index = 0 := by
  refine .seq .get fun m => .seq (idles_placeFunctions _) fun _ => .seq .ofExcept fun function => ?_
  refine .bind (turns_newFrame _) ?_
  rintro _ _ ⟨rfl, function', rfl⟩
  refine .bind (turns_beginLocal _ _) ?_
  rintro ⟨_, _⟩ _ ⟨rfl, _, -, rfl⟩
  refine Turns.mono (turns_push rfl) ?_
  intro _ after same
  exact ⟨_, same, rfl, rfl⟩

variable {program : Program} {target : Target} {chooser : Chooser} {predictor : Predictor}

/-- What the beginning of an execution leads to. -/
theorem stands_of_boot (h : boot (fresh program target chooser predictor) = (.ok (), m)) :
    ∃ f : Frame, m.stack = [f] ∧ f.result = none ∧ f.index = 0 ∧
      m.store.casts.predictor = predictor := by
  have stands : Stands (fresh program target chooser predictor) 0 []
      (fresh program target chooser predictor) := .refl fun k a found => by simp [fresh] at found
  obtain ⟨_, ⟨f, rfl, none, start⟩, after⟩ := turns_boot.ok stands h
  exact ⟨f, after.stack, none, start, after.predictor⟩

theorem Reachable.tail (h : Reachable program target chooser predictor m)
    (run : step m = (.ok (), m')) : Reachable program target chooser predictor m' := by
  obtain ⟨m₀, begun, steps⟩ := h
  exact ⟨m₀, begun, steps.tail run⟩

theorem eq_ok_of_toBool {answer : Except Fault Unit} (h : answer.toBool = true) :
    answer = .ok () := by
  cases answer with
  | ok u => rfl
  | error e => cases h

/-- Whether a step of a program succeeds can be decided by making it. -/
theorem step_afterSteps {n : Nat} (h : (step (afterSteps program n)).1.toBool = true) :
    step (afterSteps program n) = (.ok (), afterSteps program (n + 1)) :=
  Prod.ext (eq_ok_of_toBool h) rfl

/-- What is reached in so many steps is reachable, if all of them succeed. -/
theorem reachable_afterSteps {n : Nat}
    (begun : (boot (fresh program ⟨8, .little⟩ inTurn .standard)).1.toBool = true)
    (steps : ∀ k < n, (step (afterSteps program k)).1.toBool = true) :
    Reachable program ⟨8, .little⟩ inTurn .standard (afterSteps program n) := by
  induction n with
  | zero => exact .begun (eq_ok_of_toBool begun)
  | succ n ih =>
      have before := ih fun k hk => steps k (Nat.lt_succ_of_lt hk)
      exact before.tail (step_afterSteps (steps n (Nat.lt_succ_self n)))

/-- What a step of a reachable machine is made of. -/
theorem Reachable.turn (h : Reachable program target chooser predictor m)
    (run : step m = (.ok (), m')) :
    ∃ f name block rest, m.Executes f name block ∧ m.stack = f :: rest ∧
      Turn m.allocated f block rest m'.stack ∧ Stands m m.stack.length m'.stack m' := by
  obtain ⟨f, name, block, executes⟩ := exists_executes run
  obtain ⟨rest, stack⟩ := executes.top
  obtain ⟨turn, stands⟩ := turn_of_step h.numbered executes stack run
  exact ⟨f, name, block, rest, executes, stack, turn, stands⟩

/-- What holds of the first stack and is kept by every turn holds of every stack. -/
theorem Reachable.induction {P : List Frame → Prop}
    (h : Reachable program target chooser predictor m)
    (first : ∀ f : Frame, f.result = none → f.index = 0 → P [f])
    (next : ∀ n f name block rest stack, currentBlock f = .ok (name, block) →
      Turn n f block rest stack → P (f :: rest) → P stack) : P m.stack := by
  obtain ⟨m₀, begun, steps⟩ := h
  induction steps with
  | refl =>
      obtain ⟨f, stack, none, start, -⟩ := stands_of_boot begun
      rw [stack]
      exact first f none start
  | @tail m m' before run ih =>
      have reached : Reachable program target chooser predictor m := ⟨m₀, begun, before⟩
      obtain ⟨f, name, block, rest, executes, stack, turn, -⟩ := reached.turn run
      rw [stack] at ih
      exact next m.allocated f name block rest _ executes.current turn ih

/-- No step exchanges the predictor. -/
theorem Reachable.predictor_eq (h : Reachable program target chooser predictor m) :
    m.store.casts.predictor = predictor := by
  obtain ⟨m₀, begun, steps⟩ := h
  induction steps with
  | refl =>
      obtain ⟨f, -, -, -, same⟩ := stands_of_boot begun
      exact same
  | @tail m m' before run ih =>
      have reached : Reachable program target chooser predictor m := ⟨m₀, begun, before⟩
      obtain ⟨_, _, _, _, -, -, -, stands⟩ := reached.turn run
      exact stands.predictor.trans ih

end Machine

end AbstractMachine
