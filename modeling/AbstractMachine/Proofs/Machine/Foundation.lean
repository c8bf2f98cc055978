/-
# AbstractMachine.Proofs.Machine.Foundation — what a machine stands on

Before the first step every function gets one byte of memory, and its address is an address that no
other function has (`Grounds`). From then on the program, its target and the addresses of functions
stay what they are; a frame runs a function of the program; and memory, which a machine changes only
by calling its operations, is laid out (`Founded`). Whatever an action does, and whether it fails or
not, it keeps this. So nothing is said here of faults, and little of answers.
-/
import AbstractMachine.Proofs.Machine.Ownership
import AbstractMachine.Proofs.Memory.Allocator

namespace AbstractMachine

/-- A function is one of a program. -/
def Program.Has (p : Program) (f : Function) : Prop :=
  ∃ name, (name, f) ∈ p.functions.entries

namespace Machine

/-! ## The addresses of functions -/

/-- An allocation is the byte of memory that the function at an address has. -/
structure Hosts (a : Allocation) (addr : Int) : Prop where
  live : a.live = true
  kind : a.kind = .function
  size : a.size = 1
  addr : a.addr = addr

/-- Each function has a live byte of memory of its own. -/
structure Grounds (m : Machine) : Prop where
  laid : m.store.memory.Laid
  hosted : ∀ e ∈ m.functions.entries, ∃ a ∈ m.store.memory.allocations, Hosts a e.2
  distinct : m.functions.entries.Pairwise fun e d => e.2 ≠ d.2

/-- The address of a function is one. -/
theorem Grounds.address {m : Machine} (h : m.Grounds) {e : String × Int}
    (he : e ∈ m.functions.entries) : 0 < e.2 ∧ e.2 < m.target.limit := by
  obtain ⟨a, ha, hosts⟩ := h.hosted e he
  have placed := h.laid.placed a ha
  have below := placed.stop_lt_limit
  have positive := placed.positive
  rw [Allocation.stop, hosts.size, hosts.addr] at below
  exact ⟨hosts.addr ▸ positive, by rw [Machine.target]; omega⟩

end Machine

/-- An entry that differs from all others may be put among them. -/
theorem Table.pairwise_insert {κ α : Type} [DecidableEq κ] {R : α → α → Prop} {t : Table κ α}
    {k : κ} {a : α} (h : t.entries.Pairwise fun e d => R e.2 d.2)
    (new : ∀ e ∈ t.entries, R e.2 a ∧ R a e.2) :
    (t.insert k a).entries.Pairwise fun e d => R e.2 d.2 := by
  obtain ⟨entries⟩ := t
  simp only [insert] at h new ⊢
  induction entries with
  | nil => simp [put]
  | cons e rest ih =>
      obtain ⟨l, b⟩ := e
      obtain ⟨first, rest'⟩ := List.pairwise_cons.1 h
      obtain ⟨⟨before, after⟩, new⟩ := List.forall_mem_cons.1 new
      rw [put]
      split
      · exact List.pairwise_cons.2 ⟨fun d hd => (new d hd).2, rest'⟩
      · refine List.pairwise_cons.2 ⟨fun d hd => ?_, ih rest' new⟩
        have hd : d ∈ ((Table.mk rest).insert k a).entries := hd
        obtain old | rfl := mem_insert_entries hd
        · exact first d old
        · exact before

namespace Machine

variable {m m' : Machine} {p : Pointer} {α β : Type}

/-- One more function gets its address. -/
theorem Grounds.insert (h : m.Grounds) {mem : Memory} {journal : Journal}
    (made : m.store.memory.allocate 1 1 .function = (.ok p, mem)) (name : String) :
    Grounds { m.withMemory mem journal with functions := m.functions.insert name p.addr } := by
  obtain ⟨a, new⟩ := Memory.made_of_allocate made
  have addr : a.addr = p.addr := by rw [new.base, Allocation.base]
  have apart := (new.placed made).2
  have old (b : Allocation) (hb : b ∈ m.store.memory.allocations) : b ∈ mem.allocations := by
    rw [new.allocations]
    exact List.mem_append_left _ hb
  refine ⟨?_, ?_, ?_⟩
  · have laid := h.laid.after (.allocate 1 1 .function)
    rwa [Memory.after, made] at laid
  · intro e he
    obtain known | rfl := Table.mem_insert_entries he
    · obtain ⟨b, hb, hosts⟩ := h.hosted e known
      exact ⟨b, old b hb, hosts⟩
    · refine ⟨a, ?_, new.live, new.kind, new.size, addr⟩
      show a ∈ mem.allocations
      rw [new.allocations]
      exact List.mem_append_right _ List.mem_cons_self
  · refine Table.pairwise_insert h.distinct fun e he => ?_
    obtain ⟨b, hb, hosts⟩ := h.hosted e he
    have apart := apart b hb hosts.live
    rw [Allocation.Apart, Allocation.stop, Allocation.stop, hosts.size, new.size, hosts.addr,
      addr] at apart
    omega

theorem grounds_of_placeFunctions {names : List String} (h : m.Grounds)
    (run : placeFunctions names m = (.ok (), m')) :
    m'.Grounds ∧ m'.program = m.program ∧ m'.target = m.target ∧ m'.stack = m.stack := by
  induction names generalizing m with
  | nil =>
      obtain ⟨-, rfl⟩ := Action.pure_eq_ok_iff.1 run
      exact ⟨h, rfl, rfl, rfl⟩
  | cons name rest ih =>
      rw [placeFunctions] at run
      simp only [Action.bind_eq_ok_iff] at run
      obtain ⟨p, n, allocated, _, n', put, run⟩ := run
      obtain ⟨mem, journal, made, rfl⟩ := onStore_allocate_eq_ok allocated
      cases put
      obtain ⟨grounds, program, target, stack⟩ := ih (h.insert made name) run
      have same := Memory.target_after m.store.memory (.allocate 1 1 .function)
      rw [Memory.after, made] at same
      exact ⟨grounds, program, target.trans same, stack⟩

/-! ## What stays -/

/-- What stays of a machine once its functions were placed. -/
structure Founded (m₀ m : Machine) : Prop where
  program : m.program = m₀.program
  functions : m.functions = m₀.functions
  target : m.target = m₀.target
  laid : m.store.memory.Laid
  stack : ∀ f ∈ m.stack, m₀.program.Has f.function

/-- An action keeps what stays, and yields an answer as said, if it does. -/
def Stays (m₀ : Machine) (x : Action Machine α) (V : α → Prop := fun _ => True) : Prop :=
  Action.Keeps (Founded m₀) x V fun _ _ => True

variable {m₀ : Machine}

namespace Founded

theorem of_outline_eq (h : Founded m₀ m) (same : m'.outline = m.outline) : Founded m₀ m' := by
  have memory := congrArg (fun m : Machine => m.store.memory) same
  have memory : m'.store.memory.outline = m.store.memory.outline := memory
  have target : m'.target = m.target := Memory.target_of_outline_eq memory
  have program := congrArg Machine.program same
  have functions := congrArg Machine.functions same
  have stack := congrArg Machine.stack same
  exact {
    program := Eq.trans program h.program
    functions := Eq.trans functions h.functions
    target := target.trans h.target
    laid := h.laid.of_outline_eq memory
    stack := fun f hf => h.stack f (stack ▸ hf) }

/-- Memory changes by calls of its operations. -/
theorem after (h : Founded m₀ m) {c : Memory.Call} {mem : Memory} {journal : Journal}
    (called : m.store.memory.after c = mem) : Founded m₀ (m.withMemory mem journal) where
  program := h.program
  functions := h.functions
  target := by
    rw [← h.target, Machine.target, Machine.target, ← m.store.memory.target_after c, called]
    rfl
  laid := called ▸ h.laid.after c
  stack := h.stack

theorem withStack (h : Founded m₀ m) {stack : List Frame}
    (functions : ∀ f ∈ stack, m₀.program.Has f.function) :
    Founded m₀ { m with stack := stack } :=
  ⟨h.program, h.functions, h.target, h.laid, functions⟩

end Founded

namespace Stays

variable {x : Action Machine α} {f : α → Action Machine β} {V : α → Prop} {W : β → Prop}

/-- After an answer of which nothing is said. -/
theorem seq (hx : Stays m₀ x) (hf : ∀ a, Stays m₀ (f a) W) : Stays m₀ (x >>= f) W :=
  Action.Keeps.bind hx fun a _ => hf a

theorem answer {a : α} (h : V a) : Stays m₀ (pure a : Action Machine α) V :=
  Action.Keeps.pure h

theorem nothing {a : α} : Stays m₀ (pure a : Action Machine α) :=
  answer trivial

theorem throw {e : Fault} : Stays m₀ (throw e : Action Machine α) V :=
  Action.Keeps.throw fun _ _ => trivial

theorem ofExcept {e : Except Fault α} : Stays m₀ (Action.ofExcept e) :=
  Action.Keeps.ofExcept (fun _ _ => trivial) fun _ _ _ _ => trivial

theorem need {c : Bool} {e : Fault} : Stays m₀ (Action.need c e) :=
  Action.Keeps.mono (Action.Keeps.need fun _ _ => trivial) fun _ _ => trivial

theorem getTarget : Stays m₀ Machine.getTarget :=
  seq (Action.Keeps.mono Action.Keeps.get fun _ _ => trivial) fun _ => nothing

theorem ask {g : Machine → Except Fault α} : Stays m₀ (Action.ask g) :=
  Action.Keeps.ask (fun _ _ _ _ => trivial) fun _ _ _ _ => trivial

/-- An evaluation keeps the outline of a machine. -/
theorem evaluates {U : α → Prop} (h : ∀ m : Machine, m.store.memory.Numbered →
    Evaluates (fun _ => True) m x U) : Stays m₀ x where
  ok {m m' a} founded run := by
    obtain ⟨evolved, -⟩ := (h m founded.laid.numbered).ok (.refl fun _ _ => trivial) run
    exact ⟨founded.of_outline_eq evolved.outline, trivial⟩
  error {m m' e} founded run := by
    obtain ⟨evolved, -⟩ := (h m founded.laid.numbered).error (.refl fun _ _ => trivial) run
    exact ⟨founded.of_outline_eq evolved.outline, trivial⟩

theorem alter {change : Machine → Machine} (h : ∀ m, Founded m₀ m → Founded m₀ (change m)) :
    Stays m₀ (modify change : Action Machine PUnit) :=
  Action.Meets.modify fun m founded => ⟨h m founded, trivial⟩

/-- What is only noted or printed or counted. -/
theorem other (change : Machine → Machine) (program : ∀ m, (change m).program = m.program)
    (functions : ∀ m, (change m).functions = m.functions)
    (memory : ∀ m, (change m).store.memory = m.store.memory)
    (stack : ∀ m, (change m).stack = m.stack) :
    Stays m₀ (modify change : Action Machine PUnit) :=
  .alter fun m founded => {
    program := (program m).trans founded.program
    functions := (functions m).trans founded.functions
    target := by
      rw [← founded.target, Machine.target, Machine.target, memory]
    laid := memory m ▸ founded.laid
    stack := fun f hf => founded.stack f (stack m ▸ hf) }

theorem note (e : Event) : Stays m₀ (Machine.note e) :=
  .other (fun m => { m with store.journal := m.store.journal.note e }) (fun _ => rfl)
    (fun _ => rfl) (fun _ => rfl) fun _ => rfl

theorem print (line : String) (toStderr : Bool) : Stays m₀ (Machine.print line toStderr) :=
  .other _ (fun _ => by split <;> rfl) (fun _ => by split <;> rfl) (fun _ => by split <;> rfl)
    fun _ => by split <;> rfl

theorem frame : Stays m₀ Machine.frame fun f => m₀.program.Has f.function where
  ok {m m' f} founded run := by
    obtain ⟨rfl, rest, stack⟩ := frame_eq_ok_iff.1 run
    exact ⟨founded, founded.stack f (stack ▸ List.mem_cons_self)⟩
  error {m m' e} founded run := by
    obtain ⟨rfl, -⟩ := frame_eq_error run
    exact ⟨founded, trivial⟩

/-- A frame may change, but not its function. -/
theorem modifyFrame {change : Frame → Frame}
    (h : ∀ f, m₀.program.Has f.function → m₀.program.Has (change f).function) :
    Stays m₀ (Machine.modifyFrame change) :=
  .alter fun m founded => founded.withStack fun g hg => by
    cases stack : m.stack with
    | nil =>
        rw [stack] at hg
        cases hg
    | cons f rest =>
        rw [stack, List.modifyHead_cons] at hg
        rcases List.mem_cons.1 hg with rfl | hg
        · exact h f (founded.stack f (stack ▸ List.mem_cons_self))
        · exact founded.stack g (stack ▸ List.mem_cons_of_mem _ hg)

theorem push {f : Frame} (h : m₀.program.Has f.function) :
    Stays m₀ (modify fun m => { m with stack := f :: m.stack } : Action Machine PUnit) :=
  .alter fun m founded => founded.withStack fun g hg => by
    rcases List.mem_cons.1 hg with rfl | hg
    · exact h
    · exact founded.stack g hg

theorem allocate {size align : Int} {kind : AllocKind} :
    Stays m₀ (onStore (Store.allocate size align kind)) where
  ok {m m' p} founded run := by
    obtain ⟨mem, journal, made, rfl⟩ := onStore_allocate_eq_ok run
    exact ⟨founded.after (c := .allocate size align kind) (by rw [Memory.after, made]), trivial⟩
  error {m m' e} founded run := by
    obtain ⟨mem, refused, rfl⟩ := onStore_allocate_eq_error run
    exact ⟨founded.after (c := .allocate size align kind) (by rw [Memory.after, refused]), trivial⟩

theorem deallocate {size align : Int} {kind : AllocKind} :
    Stays m₀ (onStore (Store.deallocate p size align kind)) where
  ok {m m' u} founded run := by
    obtain ⟨mem, journal, freed, rfl⟩ := onStore_deallocate_eq_ok run
    refine ⟨founded.after (c := .deallocate p size align kind) ?_, trivial⟩
    rw [Memory.after, freed, Memory.orSame]
  error {m m' e} founded run := by
    obtain ⟨-, rfl⟩ := onStore_deallocate_eq_error run
    exact ⟨founded, trivial⟩

theorem typedLoad {place : PlaceTy} : Stays m₀ (onStore (Store.typedLoad p place)) :=
  .evaluates fun _ _ => evaluates_typedLoad fun _ _ => trivial

theorem typedStore {place : PlaceTy} {v : Value} : Stays m₀ (onStore (Store.typedStore p v place)) :=
  .evaluates fun _ numbered =>
    evaluates_typedStore numbered (fun _ _ => trivial) fun _ _ => trivial

theorem deinit {place : PlaceTy} : Stays m₀ (onStore (Store.deinit p place)) :=
  .evaluates fun _ numbered => evaluates_deinit numbered fun _ _ => trivial

theorem offsetInBounds {offset : Int} : Stays m₀ (Machine.offsetInBounds p offset) :=
  .evaluates fun _ _ => Evaluates.offsetInBounds fun _ _ => trivial

theorem expose : Stays m₀ (onStore (Store.expose p)) :=
  .evaluates fun _ _ => Evaluates.expose fun _ _ => trivial

theorem fromAddr (addr : Int) : Stays m₀ (Machine.fromAddr addr) :=
  .evaluates fun _ _ => Evaluates.fromAddr addr

theorem bind (hx : Stays m₀ x V) (hf : ∀ a, V a → Stays m₀ (f a) W) : Stays m₀ (x >>= f) W :=
  Action.Keeps.bind hx hf

end Stays

/-! ## Instructions -/

section Instructions

theorem stays_evalValue (e : ValueExpr) : Stays m₀ (evalValue e) :=
  .evaluates fun _ numbered => evaluates_evalValue numbered (fun _ _ => trivial)
    (fun _ _ _ _ _ => trivial) e e.in_full

theorem stays_evalPlace (p : PlaceExpr) : Stays m₀ (evalPlace p) :=
  .evaluates fun _ numbered => evaluates_evalPlace numbered (fun _ _ => trivial)
    (fun _ _ _ _ _ => trivial) p p.in_full

theorem stays_evalAll (es : List ValueExpr) : Stays m₀ (evalAll es) :=
  .evaluates fun _ numbered => evaluates_evalAll numbered (fun _ _ => trivial)
    (fun _ _ _ _ _ => trivial) es (ValueExpr.allIn_full es)

/-- A local begins to live in a frame, which runs the same function afterwards. -/
theorem stays_beginLocal {f : Frame} (has : m₀.program.Has f.function) (name : String) :
    Stays m₀ (beginLocal f name) fun a => m₀.program.Has a.2.function := by
  refine Stays.seq .need fun _ => .seq .ofExcept fun place => .seq .getTarget fun target => ?_
  exact .seq .allocate fun p => .answer has

theorem stays_freeLocal (f : Frame) (name : String) (p : Pointer) :
    Stays m₀ (freeLocal f name p) :=
  .seq .ofExcept fun _ => .seq .getTarget fun _ => .deallocate

theorem stays_freeLocals (f : Frame) (entries : List (String × Pointer)) :
    Stays m₀ (freeLocals f entries) := by
  induction entries with
  | nil => exact .nothing
  | cons e rest ih => exact .seq (stays_freeLocal f e.1 e.2) fun _ => ih

theorem stays_storageLive (name : String) : Stays m₀ (storageLive name) :=
  .bind .frame fun _ has => .bind (stays_beginLocal has name) fun _ has => .modifyFrame fun _ _ => has

theorem stays_storageDead (name : String) : Stays m₀ (storageDead name) := by
  refine .bind .frame fun f _ => ?_
  cases f.locals.find? name with
  | none => exact .throw
  | some p => exact .seq (.modifyFrame fun _ has => has) fun _ => stays_freeLocal f name p

theorem stays_jump (block : String) : Stays m₀ (jump block) :=
  .bind .frame fun _ _ => .seq .need fun _ => .modifyFrame fun _ has => has

theorem stays_storeTag (p : Pointer) (align : Int) (writes : List TagWrite) :
    Stays m₀ (storeTag p align writes) := by
  induction writes with
  | nil => exact .nothing
  | cons w rest ih => exact .seq .offsetInBounds fun _ => .seq .typedStore fun _ => ih

theorem stays_execute (s : Statement) : Stays m₀ (execute s) := by
  cases s with
  | assign destination source =>
      exact .seq (stays_evalValue source) fun _ => .seq (stays_evalPlace destination) fun _ =>
        .typedStore
  | finalize place => exact .seq (stays_evalPlace place) fun _ => .seq .typedLoad fun _ => .nothing
  | live name => exact stays_storageLive name
  | dead name => exact stays_storageDead name
  | setDiscriminant place d =>
      refine .seq (stays_evalPlace place) ?_
      rintro ⟨p, ⟨ty, align⟩⟩
      cases ty with
      | enum e => exact .seq .ofExcept fun variant => stays_storeTag p align variant.tagger
      | _ => exact .throw
  | deinit place => exact .seq (stays_evalPlace place) fun _ => .deinit
  | validate place =>
      refine .seq (stays_evalPlace place) fun _ => .seq .typedLoad fun v => ?_
      refine .seq (.evaluates (U := fun _ => True) fun _ _ => ?_) fun w => .typedStore
      exact .ask (fun _ _ _ _ => trivial) fun _ => Memory.failsIn_retagValue _ fun _ _ => trivial
  | mention place => exact .seq (stays_evalPlace place) fun _ => .nothing

theorem stays_printAll (toStderr : Bool) (arguments : List (Value × Ty)) :
    Stays m₀ (printAll toStderr arguments) := by
  induction arguments with
  | nil => exact .nothing
  | cons a rest ih => exact .seq .ofExcept fun line => .seq (.print line toStderr) fun _ => ih

theorem stays_performIntrinsic (op : IntrinsicOp) (arguments : List (Value × Ty)) :
    Stays m₀ (performIntrinsic op arguments) := by
  unfold performIntrinsic
  split
  · exact .seq (stays_printAll _ _) fun _ => .nothing
  · exact .seq (stays_printAll _ _) fun _ => .nothing
  · exact .throw
  · exact .throw
  · exact .seq .ofExcept fun _ => .seq .ofExcept fun _ => .seq .allocate fun _ => .nothing
  · exact .seq .ofExcept fun _ => .seq .ofExcept fun _ => .seq .ofExcept fun _ =>
      .seq .deallocate fun _ => .nothing
  · exact .seq .ofExcept fun _ => .seq .expose fun _ => .seq .getTarget fun _ => .nothing
  · exact .seq .ofExcept fun addr => .seq .getTarget fun _ => .seq .ofExcept fun _ =>
      .seq .need fun _ => .seq (.fromAddr addr) fun _ => .nothing
  · exact .seq .need fun _ => .nothing
  · exact .throw

theorem stays_evalResult (place : Option PlaceExpr) : Stays m₀ (evalResult place) := by
  cases place with
  | none => exact .nothing
  | some p => exact .seq (stays_evalPlace p) fun _ => .nothing

theorem stays_storeResult (v : Value) (ty : Ty) (place : Option (Pointer × PlaceTy)) :
    Stays m₀ (storeResult v ty place) := by
  cases place with
  | none => exact .nothing
  | some r => exact .seq .need fun _ => .typedStore

theorem stays_execIntrinsic (op : IntrinsicOp) (arguments : List ValueExpr)
    (result : Option PlaceExpr) (next : Option String) :
    Stays m₀ (execIntrinsic op arguments result next) := by
  refine .seq (stays_evalAll arguments) fun vs => .seq (stays_evalResult result) fun place => ?_
  refine .seq (stays_performIntrinsic op vs) fun a => .seq (stays_storeResult _ _ place) fun _ => ?_
  cases next with
  | none => exact .throw
  | some block => exact stays_jump block

theorem stays_passArguments : ∀ (arguments : List (ValueExpr × ArgAbi))
    (params : List (String × ArgAbi)) {callee : Frame}, m₀.program.Has callee.function →
    Stays m₀ (passArguments arguments params callee) fun f => m₀.program.Has f.function
  | (e, given) :: arguments, (name, expected) :: params, callee, has => by
      rw [passArguments]
      refine .seq (stays_evalValue e) fun a => .seq .need fun _ => .seq .ofExcept fun place => ?_
      refine .seq .getTarget fun target => .seq .need fun _ => ?_
      refine .bind (stays_beginLocal has name) fun b has => .seq .typedStore fun _ => ?_
      exact stays_passArguments arguments params has
  | [], params, callee, has => by
      rw [passArguments_nil]
      exact .answer has
  | a :: arguments, [], callee, has => by
      rw [passArguments_of_no_params]
      exact .answer has

theorem stays_newFrame (name : String) :
    Stays m₀ (newFrame name) fun f => m₀.program.Has f.function where
  ok {m m' f} founded run := by
    obtain ⟨rfl, function, found, rfl⟩ := newFrame_eq_ok_iff.1 run
    rw [founded.program] at found
    exact ⟨founded, name, Table.mem_entries_of_find? found⟩
  error {m m' e} founded run := by
    obtain ⟨rfl, -⟩ := newFrame_eq_error run
    exact ⟨founded, trivial⟩

theorem stays_execCall (callee : ValueExpr) (arguments : List (ValueExpr × ArgAbi))
    (result : PlaceExpr) (resultAbi : ArgAbi) (next : Option String)
    (convention : CallingConvention) :
    Stays m₀ (execCall callee arguments result resultAbi next convention) := by
  refine .seq (stays_evalValue callee) fun a => .seq .ask fun name => ?_
  refine .bind (stays_newFrame name) fun f has => .seq .need fun _ => .seq .need fun _ => ?_
  refine .seq .ofExcept fun resultPlace => .bind (stays_beginLocal has _) fun b has => ?_
  refine .seq (stays_evalPlace result) fun r => .seq .need fun _ => .seq .getTarget fun _ => ?_
  refine .seq .need fun _ => .bind (stays_passArguments arguments _ has) fun f has => ?_
  refine .bind .frame fun caller _ => .seq (.modifyFrame fun _ has => has) fun _ => ?_
  exact .seq (.push has) fun _ => .note _

theorem stays_popFrame : Stays m₀ popFrame where
  ok {m m' f} founded run := by
    obtain ⟨stack, same⟩ := popFrame_eq_ok_iff.1 run
    rw [same]
    refine ⟨founded.withStack fun g hg => founded.stack g ?_, trivial⟩
    rw [stack]
    exact List.mem_cons_of_mem _ hg
  error {m m' e} founded run := by
    obtain ⟨rfl, -⟩ := popFrame_eq_error run
    exact ⟨founded, trivial⟩

theorem stays_resume : Stays m₀ resume := by
  refine .seq (Action.Keeps.mono Action.Keeps.get fun _ _ => trivial) fun m => ?_
  cases m.stack with
  | nil => exact .throw
  | cons caller rest => exact .need

theorem stays_execReturn : Stays m₀ execReturn := by
  refine .seq stays_popFrame fun f => ?_
  cases f.locals.find? f.function.result with
  | none => exact .throw
  | some p =>
      refine .seq .ofExcept fun place => .seq .typedLoad fun v => .seq ?_ fun _ => ?_
      · cases f.result with
        | none => exact .nothing
        | some r => exact .typedStore
      · exact .seq (stays_freeLocals f _) fun _ => .seq (.note _) fun _ => stays_resume

theorem stays_finish (t : Terminator) : Stays m₀ (finish t) := by
  cases t with
  | goto block => exact stays_jump block
  | ite condition onTrue onFalse =>
      refine .seq (stays_evalValue condition) ?_
      rintro ⟨v, _⟩
      cases v with
      | bool b => exact stays_jump _
      | _ => exact .throw
  | switch value cases fallback =>
      refine .seq (stays_evalValue value) ?_
      rintro ⟨v, _⟩
      cases v with
      | int n => exact stays_jump _
      | _ => exact .throw
  | unreachable => exact .throw
  | call callee arguments result resultAbi next convention => exact stays_execCall ..
  | ret => exact stays_execReturn
  | intrinsic op arguments result next => exact stays_execIntrinsic ..

/-- Every step keeps what stays. -/
theorem stays_step : Stays m₀ step := by
  refine .seq (Action.Keeps.mono Action.Keeps.get fun _ _ => trivial) fun m => ?_
  refine .seq .need fun _ => .bind .frame fun f _ => .seq .ofExcept fun at_ => ?_
  refine .seq (.seq ?_ fun _ => .note _) fun _ => ?_
  · exact .other _ (fun _ => rfl) (fun _ => rfl) (fun _ => rfl) fun _ => rfl
  cases at_.2.statements[f.index]? with
  | none => exact stays_finish _
  | some s => exact .seq (stays_execute s) fun _ => .modifyFrame fun _ has => has

end Instructions

/-! ## Reachable machines -/

variable {program : Program} {target : Target} {chooser : Chooser} {predictor : Predictor}

theorem grounds_fresh : (fresh program target chooser predictor).Grounds where
  laid := .fresh target chooser
  hosted e he := by cases he
  distinct := .nil

/-- A machine that was booted stands on one whose functions were placed, and for the result of its
first function there was room in memory. -/
theorem founded_of_boot (h : boot (fresh program target chooser predictor) = (.ok (), m)) :
    1 ≤ target.ptrSize ∧ ∃ m₀ : Machine, m₀.Grounds ∧ m₀.program = program ∧ m₀.target = target ∧
      Founded m₀ m := by
  unfold boot at h
  rw [Action.apply_bind_of_ok (Action.apply_get _), Action.bind_eq_ok_iff] at h
  obtain ⟨_, m₀, placed, h⟩ := h
  obtain ⟨grounds, program, target, stack⟩ := grounds_of_placeFunctions grounds_fresh placed
  have founded : Founded m₀ m₀ := by
    refine ⟨rfl, rfl, rfl, grounds.laid, fun f hf => ?_⟩
    rw [stack] at hf
    cases hf
  simp only [Action.bind_eq_ok_iff, Action.ofExcept_eq_iff] at h
  obtain ⟨function, m₀, ⟨-, rfl⟩, f, n, framed, ⟨p, g⟩, n', lives, pushed⟩ := h
  obtain ⟨founded, has⟩ := (stays_newFrame _).ok founded framed
  obtain ⟨founded', has⟩ := (stays_beginLocal has _).ok founded lives
  cases pushed
  constructor
  · obtain ⟨place, a, mem, journal, -, -, made, -, rfl⟩ := beginLocal_eq_ok lives
    have known : a ∈ mem.allocations := by
      rw [made.allocations]
      exact List.mem_append_right _ List.mem_cons_self
    have placed := founded'.laid.placed a known
    have same : (n.withMemory mem journal).store.memory.target = m₀.target := founded'.target
    rw [same, target] at placed
    exact placed.one_le_ptrSize
  · refine ⟨m₀, grounds, program, target, founded'.withStack fun f hf => ?_⟩
    rcases List.mem_cons.1 hf with rfl | hf
    · exact has
    · exact founded'.stack f hf

/-- What a reachable machine stands on. -/
theorem Reachable.founded (h : Reachable program target chooser predictor m) :
    1 ≤ target.ptrSize ∧ ∃ m₀ : Machine, m₀.Grounds ∧ m₀.program = program ∧ m₀.target = target ∧
      Founded m₀ m := by
  obtain ⟨m₁, begun, steps⟩ := h
  obtain ⟨width, m₀, grounds, program, target, founded⟩ := founded_of_boot begun
  refine ⟨width, m₀, grounds, program, target, ?_⟩
  induction steps with
  | refl => exact founded
  | tail _ step ih => exact (stays_step.ok ih step).1

theorem Reachable.width (h : Reachable program target chooser predictor m) : 1 ≤ target.ptrSize :=
  h.founded.1

theorem Reachable.target_eq (h : Reachable program target chooser predictor m) :
    m.target = target := by
  obtain ⟨-, m₀, -, -, runsOn, founded⟩ := h.founded
  exact founded.target.trans runsOn

theorem Reachable.laid (h : Reachable program target chooser predictor m) :
    m.store.memory.Laid := by
  obtain ⟨-, m₀, -, -, -, founded⟩ := h.founded
  exact founded.laid

end Machine

/-! ## Reached memories -/

namespace Memory

variable {target : Target} {m : Memory}

/-- The memories that there can be on a target: those that calls of the operations lead to, and
those of reachable machines. -/
inductive Reached (target : Target) : Memory → Prop
  | calls (chooser : Chooser) (calls : List Call) :
      Reached target ((fresh target chooser).afterAll calls)
  | execution {program : Program} {chooser : Chooser} {predictor : Predictor} {m : Machine}
      (h : Machine.Reachable program target chooser predictor m) : Reached target m.store.memory

theorem Reached.laid (h : Reached target m) : m.Laid := by
  cases h with
  | calls chooser calls => exact (Laid.fresh target chooser).afterAll calls
  | execution reachable => exact reachable.laid

theorem Reached.target_eq (h : Reached target m) : m.target = target := by
  cases h with
  | calls chooser calls => exact target_afterAll _ calls
  | execution reachable => exact reachable.target_eq

end Memory

end AbstractMachine
