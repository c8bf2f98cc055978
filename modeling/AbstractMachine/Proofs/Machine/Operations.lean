/-
# AbstractMachine.Proofs.Machine.Operations — when an action on a machine succeeds, and what it does

As with memory, each action is opened once: when it succeeds, what the machine is then, and how it
fails. Actions on the store change memory, what is exposed, or what was asked, and nothing else but
the journal. A local begins to live and is freed by such actions. A return is a handing over and a
clean-up. And a step begins by counting itself, and executes one instruction after that.
-/
import AbstractMachine.Machine.Run
import AbstractMachine.Proofs.Action
import AbstractMachine.Proofs.Memory.Operations

namespace AbstractMachine

namespace Machine

variable {m m' : Machine} {p : Pointer} {size align : Int} {kind : AllocKind} {f : Fault}
  {α : Type}

/-! ## Actions on the store -/

theorem onStore_change_of_ok {f : Memory → Except Fault Memory} {mem : Memory}
    (h : f m.store.memory = .ok mem) :
    onStore (Store.change f) m = (.ok (), { m with store.memory := mem }) := by
  simp only [onStore, Store.change, Action.zoom, Action.change, h]

theorem onStore_change_of_error {f : Memory → Except Fault Memory} {e : Fault}
    (h : f m.store.memory = .error e) : onStore (Store.change f) m = (.error e, m) := by
  simp only [onStore, Store.change, Action.zoom, Action.change, h]

theorem onStore_change_eq_ok_iff {f : Memory → Except Fault Memory} {u : Unit} :
    onStore (Store.change f) m = (.ok u, m') ↔
      ∃ mem, f m.store.memory = .ok mem ∧ m' = { m with store.memory := mem } := by
  cases h : f m.store.memory with
  | ok mem =>
      rw [onStore_change_of_ok h]
      constructor
      · rintro ⟨⟩
        exact ⟨mem, rfl, rfl⟩
      · rintro ⟨_, ⟨⟩, rfl⟩
        rfl
  | error e =>
      rw [onStore_change_of_error h]
      constructor
      · rintro ⟨⟩
      · rintro ⟨_, ⟨⟩, _⟩

theorem onStore_change_eq_error_iff {f : Memory → Except Fault Memory} {e : Fault} :
    onStore (Store.change f) m = (.error e, m') ↔ f m.store.memory = .error e ∧ m' = m := by
  cases h : f m.store.memory with
  | ok mem =>
      rw [onStore_change_of_ok h]
      constructor
      · rintro ⟨⟩
      · rintro ⟨⟨⟩, _⟩
  | error e' =>
      rw [onStore_change_of_error h]
      constructor
      · rintro ⟨⟩
        exact ⟨rfl, rfl⟩
      · rintro ⟨⟨⟩, rfl⟩
        rfl

/-- Memory ends no program when it is asked, and none when it is changed. -/
theorem fails_ask {f : Memory → Except Fault α}
    (h : ∀ mem : Memory, FailsIn (mem.Refuses fun _ => True) (f mem)) :
    Action.Fails (fun e => ¬e.Ends) (onStore (Store.ask f)) :=
  fun m _ e run => (h m.store.memory e (Prod.mk.inj run).1).not_ends

theorem fails_change {f : Memory → Except Fault Memory}
    (h : ∀ mem : Memory, FailsIn (mem.Refuses fun _ => True) (f mem)) :
    Action.Fails (fun e => ¬e.Ends) (onStore (Store.change f)) :=
  fun m _ e run => (h m.store.memory e (onStore_change_eq_error_iff.1 run).1).not_ends

theorem fails_typedLoad {place : PlaceTy} :
    Action.Fails (fun e => ¬e.Ends) (onStore (Store.typedLoad p place)) :=
  fails_ask fun _ => Memory.failsIn_typedLoad fun _ _ => trivial

theorem fails_typedStore {place : PlaceTy} {v : Value} :
    Action.Fails (fun e => ¬e.Ends) (onStore (Store.typedStore p v place)) :=
  fails_change fun _ => Memory.failsIn_typedStore fun _ _ => trivial

/-! ## Transmutes and unions -/

/-- A transmute asks for the target and computes; it leaves the machine as it is. -/
theorem evalUnary_transmute (m : Machine) (v : Value) (source ty : Ty) :
    evalUnary (.transmute ty) v source m =
      ((v.transmute m.target source ty).map fun w => (w, ty), m) :=
  Action.ofExcept_bind_pure (v.transmute m.target source ty) (fun w => (w, ty)) m

/-- To transmute what an expression yields changes no more than the expression does. -/
theorem evalValue_transmute {e : ValueExpr} {v : Value} {source : Ty}
    (run : evalValue e m = (.ok (v, source), m')) (ty : Ty) :
    evalValue (.unary (.transmute ty) e) m =
      ((v.transmute m'.target source ty).map fun w => (w, ty), m') := by
  rw [evalValue, Action.apply_bind_of_ok run]
  exact evalUnary_transmute m' v source ty

/-- A union that is made of what an expression yields changes no more than the expression does. -/
theorem evalValue_union {e : ValueExpr} {v : Value} {source : Ty}
    (run : evalValue e m = (.ok (v, source), m')) (u : UnionTy) (i : Int) :
    evalValue (.union i e u) m =
      ((u.ofField m'.target i v).map fun w => (w, .union u), m') := by
  rw [evalValue, Action.apply_bind_of_ok run]
  exact Action.ofExcept_bind_pure (u.ofField m'.target i v) (fun w => (w, Ty.union u)) m'

/-! ## Casts -/

/-- Exposing a pointer yields its address, and changes nothing but what is exposed and noted. -/
theorem onStore_expose (p : Pointer) (m : Machine) : ∃ journal,
    onStore (Store.expose p) m = (.ok p.addr, { m with store :=
      { memory := m.store.memory, casts := m.store.casts.expose p, journal } }) := by
  cases h : m.store.casts.unexposed? p with
  | none =>
      refine ⟨m.store.journal, ?_⟩
      have same : m.store.casts.expose p = m.store.casts := by rw [Casts.expose, h]
      rw [same]
      unfold onStore Action.zoom Store.expose
      rw [Action.apply_bind_of_ok (Action.apply_get _), h]
      rfl
  | some id =>
      refine ⟨m.store.journal.note (.exposed id), ?_⟩
      unfold onStore Action.zoom Store.expose
      rw [Action.apply_bind_of_ok (Action.apply_get _), h]
      rfl

/-- The question that a predictor is asked when an address becomes a pointer. -/
def castQuery (m : Machine) (addr : Int) : CastQuery where
  addr
  exposed := m.store.casts.exposed
  fits id := m.store.memory.covers id addr true
  contains := some fun id => m.store.memory.covers id addr false

/-- The pointer that an address becomes, before it is noted. -/
def castAnswer (m : Machine) (addr : Int) : Except Fault Pointer :=
  (m.store.casts.fromAddr addr (m.castQuery addr).fits (m.castQuery addr).contains).1

/-- The machine once the predictor has been asked. -/
def afterCast (m : Machine) (addr : Int) : Machine :=
  { m with store.casts.asked := m.castQuery addr :: m.store.casts.asked }

theorem apply_fromAddr (m : Machine) (addr : Int) : fromAddr addr m =
    match m.castAnswer addr with
    | .ok p => (.ok p, { m.afterCast addr with
        store.journal := m.store.journal.note (.castToPointer p) })
    | .error f => (.error f, m.afterCast addr) := by
  unfold fromAddr onStore Action.zoom Store.fromExposed Store.fromAddr
  rw [Action.apply_bind]
  cases h : m.castAnswer addr with
  | error f =>
      unfold castAnswer castQuery at h
      simp only [Action.ofStep, Option.map_some, h]
      rfl
  | ok p =>
      unfold castAnswer castQuery at h
      simp only [Action.ofStep, Option.map_some, h]
      rfl

theorem fromAddr_eq_ok {addr : Int} (h : fromAddr addr m = (.ok p, m')) :
    m.castAnswer addr = .ok p ∧
      ∃ journal, m' = { m.afterCast addr with store.journal := journal } := by
  rw [apply_fromAddr] at h
  cases answer : m.castAnswer addr with
  | error e =>
      rw [answer] at h
      obtain ⟨⟨⟩, -⟩ := Prod.mk.inj h
  | ok q =>
      rw [answer] at h
      obtain ⟨same, rfl⟩ := Prod.mk.inj h
      obtain rfl := Except.ok.inj same
      exact ⟨rfl, _, rfl⟩

theorem fromAddr_eq_error {addr : Int} (h : fromAddr addr m = (.error f, m')) :
    m.castAnswer addr = .error f ∧ m' = m.afterCast addr := by
  rw [apply_fromAddr] at h
  cases answer : m.castAnswer addr with
  | error e =>
      rw [answer] at h
      obtain ⟨same, rfl⟩ := Prod.mk.inj h
      obtain rfl := Except.error.inj same
      exact ⟨rfl, rfl⟩
  | ok q =>
      rw [answer] at h
      obtain ⟨⟨⟩, -⟩ := Prod.mk.inj h

/-- The predictor names what the pointer carries, and it has to be exposed. -/
theorem castAnswer_eq_ok {addr : Int} (h : m.castAnswer addr = .ok p) :
    p.addr = addr ∧ (∀ id, p.provenance = some id → id ∈ m.store.casts.exposed) ∧
      m.store.casts.predictor m.store.casts.asked (m.castQuery addr) = .ok p.provenance := by
  obtain ⟨answer, predicted, h⟩ := bind_eq_ok_iff.1 h
  cases answer with
  | none =>
      obtain rfl := Except.ok.inj h
      exact ⟨rfl, nofun, predicted⟩
  | some id =>
      obtain ⟨_, exposed, h⟩ := bind_eq_ok_iff.1 h
      obtain rfl := Except.ok.inj h
      refine ⟨rfl, ?_, predicted⟩
      rintro _ ⟨⟩
      exact List.contains_iff_mem.1 (require_eq_ok_iff.1 exposed)

/-- A cast fails if the predictor does, or names what was never exposed. -/
theorem castAnswer_eq_error {addr : Int} {f : Fault} (h : m.castAnswer addr = .error f) :
    m.store.casts.predictor m.store.casts.asked (m.castQuery addr) = .error f ∨ f.Ordinary := by
  have fails : FailsIn (fun f => m.store.casts.predictor m.store.casts.asked (m.castQuery addr) =
      .error f ∨ f.Ordinary) (m.castAnswer addr) := by
    refine .bind (fun f hf => .inl hf) fun answer _ => ?_
    cases answer with
    | none => exact .pure _
    | some id => exact .bind (.require (.inr trivial)) fun _ _ => .pure _
  exact fails f h

/-! ## Frames -/

theorem getTarget_bind (x : Target → Action Machine α) (m : Machine) :
    (getTarget >>= x) m = x m.target m := rfl

theorem frame_eq_ok_iff {fr : Frame} :
    frame m = (.ok fr, m') ↔ m = m' ∧ ∃ rest, m.stack = fr :: rest := by
  unfold frame
  rw [Action.apply_bind_of_ok (Action.apply_get m)]
  cases m.stack with
  | nil =>
      constructor
      · rintro ⟨⟩
      · rintro ⟨-, _, ⟨⟩⟩
  | cons g rest =>
      constructor
      · rintro ⟨⟩
        exact ⟨rfl, rest, rfl⟩
      · rintro ⟨rfl, _, ⟨⟩⟩
        rfl

theorem frame_of_nil (h : m.stack = []) : frame m = (.error (.defect .noFrame), m) := by
  unfold frame
  rw [Action.apply_bind_of_ok (Action.apply_get m), h]
  rfl

theorem frame_eq_error (h : frame m = (.error f, m')) :
    m' = m ∧ m.stack = [] ∧ f = .defect .noFrame := by
  unfold frame at h
  rw [Action.apply_bind_of_ok (Action.apply_get m)] at h
  cases stack : m.stack with
  | nil =>
      rw [stack] at h
      cases h
      exact ⟨rfl, rfl, rfl⟩
  | cons g rest =>
      rw [stack] at h
      cases h

theorem modifyFrame_of_cons {fr : Frame} {rest : List Frame} {change : Frame → Frame}
    (h : m.stack = fr :: rest) :
    modifyFrame change m = (.ok (), { m with stack := change fr :: rest }) := by
  unfold modifyFrame
  rw [Action.apply_modify, h]
  rfl

/-- A new frame is that of a function of the program, with nothing in it. -/
theorem newFrame_eq_ok_iff {name : String} {fr : Frame} :
    newFrame name m = (.ok fr, m') ↔ m = m' ∧ ∃ function,
      m.program.functions.find? name = some function ∧
        fr = { name, function, block := some function.start } := by
  unfold newFrame findFunction
  rw [Action.apply_bind, Action.apply_bind_of_ok (Action.apply_get m)]
  cases found : m.program.functions.find? name with
  | none =>
      constructor
      · rintro ⟨⟩
      · rintro ⟨-, _, ⟨⟩, _⟩
  | some function =>
      constructor
      · rintro ⟨⟩
        exact ⟨rfl, function, rfl, rfl⟩
      · rintro ⟨rfl, _, ⟨⟩, rfl⟩
        rfl

theorem newFrame_eq_error {name : String} (h : newFrame name m = (.error f, m')) :
    m' = m ∧ f = .defect (.noFunction name) := by
  unfold newFrame findFunction at h
  rw [Action.apply_bind, Action.apply_bind_of_ok (Action.apply_get m)] at h
  cases found : m.program.functions.find? name with
  | none =>
      rw [found] at h
      cases h
      exact ⟨rfl, rfl⟩
  | some function =>
      rw [found] at h
      cases h

/-! ## Memory -/

/-- A machine with other memory, of which something was noted. -/
def withMemory (m : Machine) (memory : Memory) (journal : Journal) : Machine :=
  { m with store := { memory, casts := m.store.casts, journal } }

theorem onStore_allocate_eq_ok (h : onStore (Store.allocate size align kind) m = (.ok p, m')) :
    ∃ mem journal, m.store.memory.allocate size align kind = (.ok p, mem) ∧
      m' = m.withMemory mem journal := by
  unfold onStore Action.zoom Store.allocate at h
  rw [Action.apply_bind] at h
  rcases made : m.store.memory.allocate size align kind with ⟨e | q, mem⟩
  · simp only [Action.zoom, Action.ofStep, made] at h
    obtain ⟨⟨⟩, -⟩ := Prod.mk.inj h
  · simp only [Action.zoom, Action.ofStep, made] at h
    cases named : q.provenance with
    | none =>
        simp only [named] at h
        obtain ⟨hq, rfl⟩ := Prod.mk.inj h
        obtain rfl := Except.ok.inj hq
        exact ⟨mem, m.store.journal, rfl, rfl⟩
    | some id =>
        simp only [named] at h
        obtain ⟨hq, rfl⟩ := Prod.mk.inj h
        obtain rfl := Except.ok.inj hq
        exact ⟨mem, _, rfl, rfl⟩

theorem onStore_allocate_eq_error
    (h : onStore (Store.allocate size align kind) m = (.error f, m')) :
    ∃ mem, m.store.memory.allocate size align kind = (.error f, mem) ∧
      m' = m.withMemory mem m.store.journal := by
  unfold onStore Action.zoom Store.allocate at h
  rw [Action.apply_bind] at h
  rcases made : m.store.memory.allocate size align kind with ⟨e | q, mem⟩
  · simp only [Action.zoom, Action.ofStep, made] at h
    obtain ⟨he, rfl⟩ := Prod.mk.inj h
    obtain rfl := Except.error.inj he
    exact ⟨mem, rfl, rfl⟩
  · simp only [Action.zoom, Action.ofStep, made] at h
    cases named : q.provenance with
    | none =>
        simp only [named] at h
        obtain ⟨⟨⟩, -⟩ := Prod.mk.inj h
    | some id =>
        simp only [named] at h
        obtain ⟨⟨⟩, -⟩ := Prod.mk.inj h

theorem onStore_deallocate_of_ok {mem : Memory}
    (h : m.store.memory.deallocate p size align kind = .ok mem) :
    ∃ journal, onStore (Store.deallocate p size align kind) m =
      (.ok (), m.withMemory mem journal) := by
  unfold onStore Action.zoom Store.deallocate
  rw [Action.apply_bind]
  simp only [Store.change, Action.zoom, Action.change, h]
  cases p.provenance with
  | none => exact ⟨m.store.journal, rfl⟩
  | some id => exact ⟨_, rfl⟩

theorem onStore_deallocate_of_error (h : m.store.memory.deallocate p size align kind = .error f) :
    onStore (Store.deallocate p size align kind) m = (.error f, m) := by
  unfold onStore Action.zoom Store.deallocate
  rw [Action.apply_bind]
  simp only [Store.change, Action.zoom, Action.change, h]

theorem onStore_deallocate_eq_ok {u : Unit}
    (h : onStore (Store.deallocate p size align kind) m = (.ok u, m')) :
    ∃ mem journal, m.store.memory.deallocate p size align kind = .ok mem ∧
      m' = m.withMemory mem journal := by
  cases freed : m.store.memory.deallocate p size align kind with
  | error f =>
      rw [onStore_deallocate_of_error freed] at h
      obtain ⟨⟨⟩, -⟩ := Prod.mk.inj h
  | ok mem =>
      obtain ⟨journal, done⟩ := onStore_deallocate_of_ok freed
      exact ⟨mem, journal, rfl, (Prod.mk.inj (h.symm.trans done)).2⟩

theorem onStore_deallocate_eq_error
    (h : onStore (Store.deallocate p size align kind) m = (.error f, m')) :
    m.store.memory.deallocate p size align kind = .error f ∧ m' = m := by
  cases freed : m.store.memory.deallocate p size align kind with
  | error e =>
      rw [onStore_deallocate_of_error freed] at h
      obtain ⟨same, rfl⟩ := Prod.mk.inj h
      obtain rfl := Except.error.inj same
      exact ⟨rfl, rfl⟩
  | ok mem =>
      obtain ⟨journal, done⟩ := onStore_deallocate_of_ok freed
      obtain ⟨⟨⟩, -⟩ := Prod.mk.inj (done.symm.trans h)

/-! ## Locals -/

/-- A local that begins to live was dead and declared, and gets memory as it was declared. -/
theorem beginLocal_eq_ok {fr g : Frame} {name : String}
    (h : beginLocal fr name m = (.ok (p, g), m')) :
    ∃ place a mem journal, fr.locals.find? name = none ∧ fr.localTy name = .ok place ∧
      m.store.memory.Made (place.byteSize m.store.memory.target) place.align .stack p mem a ∧
      g = { fr with locals := fr.locals.insert name p } ∧ m' = m.withMemory mem journal := by
  simp only [beginLocal, Action.bind_eq_ok_iff, Action.need_eq_ok_iff, Action.ofExcept_eq_iff,
    getTarget_bind, Action.pure_eq_ok_iff] at h
  obtain ⟨_, _, ⟨dead, rfl⟩, place, _, ⟨declared, rfl⟩, q, _, made, answer, rfl⟩ := h
  obtain ⟨rfl, rfl⟩ := Prod.mk.inj answer
  obtain ⟨mem, journal, allocated, rfl⟩ := onStore_allocate_eq_ok made
  obtain ⟨a, made⟩ := Memory.made_of_allocate allocated
  refine ⟨place, a, mem, journal, ?_, declared, made, rfl, rfl⟩
  simpa [Table.contains] using dead

/-- What stands in the way of a local that does not begin to live: an ordinary fault, or the
chooser. -/
theorem beginLocal_eq_error {fr : Frame} {name : String}
    (h : beginLocal fr name m = (.error f, m')) :
    m' = m ∧ f.Ordinary ∨ ∃ size align mem, m.store.memory.allocate size align .stack =
      (.error f, mem) ∧ m' = m.withMemory mem m.store.journal := by
  simp only [beginLocal, Action.bind_eq_error_iff, Action.need_eq_ok_iff, Action.ofExcept_eq_iff,
    getTarget_bind] at h
  obtain dead | ⟨_, _, ⟨-, rfl⟩, ⟨undeclared, rfl⟩ | ⟨place, _, ⟨-, rfl⟩, h⟩⟩ := h
  · obtain ⟨rfl, rfl⟩ := Action.need_eq_error dead
    exact .inl ⟨rfl, trivial⟩
  · exact .inl ⟨rfl, fr.failsIn_localTy name f undeclared⟩
  · obtain failed | ⟨q, _, -, h⟩ := h
    · obtain ⟨mem, refused, rfl⟩ := onStore_allocate_eq_error failed
      exact .inr ⟨_, _, mem, refused, rfl⟩
    · cases h

/-- Freeing a local whose memory can be freed. -/
theorem freeLocal_of_ok {fr : Frame} {name : String} {place : PlaceTy} {mem : Memory}
    (declared : fr.localTy name = .ok place)
    (h : m.store.memory.deallocate p (place.byteSize m.store.memory.target) place.align .stack =
      .ok mem) :
    ∃ journal, freeLocal fr name p m = (.ok (), m.withMemory mem journal) := by
  unfold freeLocal
  rw [declared]
  exact onStore_deallocate_of_ok h

/-! ## Arguments -/

theorem passArguments_nil (params : List (String × ArgAbi)) (callee : Frame) :
    passArguments [] params callee = pure callee := by
  rw [passArguments]
  exact nofun

/-- Arguments for which there are no parameters are left alone. -/
theorem passArguments_of_no_params (arguments : List (ValueExpr × ArgAbi)) (callee : Frame) :
    passArguments arguments [] callee = pure callee := by
  rw [passArguments]
  exact nofun

/-- Passing arguments is passing the first one, and then the others. -/
theorem passArguments_cons (a : ValueExpr × ArgAbi) (arguments : List (ValueExpr × ArgAbi))
    (param : String × ArgAbi) (params : List (String × ArgAbi)) (callee : Frame) :
    passArguments (a :: arguments) (param :: params) callee =
      passArguments [a] [param] callee >>= passArguments arguments params := by
  obtain ⟨e, given⟩ := a
  obtain ⟨name, expected⟩ := param
  simp only [passArguments.eq_1, bind_assoc, passArguments_nil, pure_bind]

/-! ## Returns -/

/-- The first part of a return: the frame is popped, and its result handed to the place that waits
for it. -/
def handOver : Action Machine Frame := do
  let f ← popFrame
  match f.locals.find? f.function.result with
  | none => throw (.defect (.returnLocalDead f.function.result f.name))
  | some p => do
      let place ← Action.ofExcept (f.localTy f.function.result)
      let v ← onStore (Store.typedLoad p place)
      deliver v place.ty f.result
      return f

/-- The second part of a return cleans up: it frees the locals of the frame that was left. -/
theorem execReturn_eq : execReturn = (do
    let f ← handOver
    freeLocals f f.locals.entries
    note (.returned f.name)
    resume) := by
  unfold execReturn handOver
  rw [bind_assoc]
  congr 1
  funext f
  cases f.locals.find? f.function.result with
  | none => rfl
  | some p => simp only [bind_assoc, pure_bind]

theorem popFrame_eq_ok_iff {fr : Frame} :
    popFrame m = (.ok fr, m') ↔ m.stack = fr :: m'.stack ∧ m' = { m with stack := m'.stack } := by
  unfold popFrame
  rw [Action.apply_bind_of_ok (Action.apply_get m)]
  cases m.stack with
  | nil =>
      constructor
      · rintro ⟨⟩
      · rintro ⟨⟨⟩, -⟩
  | cons g rest =>
      constructor
      · rintro ⟨⟩
        exact ⟨rfl, rfl⟩
      · rintro ⟨same, eq⟩
        obtain ⟨rfl, rfl⟩ := List.cons.inj same
        rw [eq]
        rfl

theorem popFrame_eq_error (h : popFrame m = (.error f, m')) :
    m' = m ∧ m.stack = [] ∧ f = .arithmetic .indexOutOfRange := by
  unfold popFrame at h
  rw [Action.apply_bind_of_ok (Action.apply_get m)] at h
  cases stack : m.stack with
  | nil =>
      rw [stack] at h
      cases h
      exact ⟨rfl, rfl, rfl⟩
  | cons g rest =>
      rw [stack] at h
      cases h

/-- Execution goes on at the block of the caller. -/
theorem resume_eq_ok {u : Unit} (h : resume m = (.ok u, m')) :
    m' = m ∧ ∃ caller below, m.stack = caller :: below ∧ caller.block.isSome = true := by
  unfold resume at h
  rw [Action.apply_bind_of_ok (Action.apply_get m)] at h
  cases stack : m.stack with
  | nil =>
      rw [stack] at h
      cases h
  | cons caller below =>
      rw [stack] at h
      obtain ⟨goesOn, same⟩ := Action.need_eq_ok_iff.1 h
      exact ⟨same, caller, below, rfl, goesOn⟩

/-- It does not if there is no caller, or if the caller has no block. -/
theorem resume_eq_error (h : resume m = (.error f, m')) :
    m' = m ∧ (m.stack = [] ∧ f = .terminated ∨ f = .undefined .returnToNowhere) := by
  unfold resume at h
  rw [Action.apply_bind_of_ok (Action.apply_get m)] at h
  cases stack : m.stack with
  | nil =>
      rw [stack] at h
      cases h
      exact ⟨rfl, .inl ⟨rfl, rfl⟩⟩
  | cons caller below =>
      rw [stack] at h
      obtain ⟨why, same⟩ := Action.need_eq_error h
      exact ⟨same, .inr why⟩

/-! ## Steps -/

/-- The machine in which the instruction of a step is executed: the step was counted, and noted. -/
def begun (m : Machine) (fr : Frame) (block : String) : Machine :=
  { m with
    steps := m.steps + 1
    store.journal :=
      (m.store.journal.atStep (some (m.steps + 1))).note (.stepped fr.name block fr.index) }

theorem beginStep_eq (fr : Frame) (block : String) (m : Machine) :
    beginStep fr block m = (.ok (), m.begun fr block) := rfl

/-- The next step is made in a frame, at a block. -/
structure Executes (m : Machine) (fr : Frame) (name : String) (block : Block) : Prop where
  running : m.terminated = false
  top : ∃ rest, m.stack = fr :: rest
  current : currentBlock fr = .ok (name, block)

/-- What is done by a step once it was counted. -/
def instruction (fr : Frame) (block : Block) : Action Machine Unit :=
  match block.statements[fr.index]? with
  | some s => do
      execute s
      modifyFrame fun f => { f with index := f.index + 1 }
  | none => finish block.terminator

theorem currentBlock_eq_error {fr : Frame} (h : currentBlock fr = .error f) :
    ∃ d, f = .defect d := by
  unfold currentBlock at h
  split at h
  · exact ⟨_, (Except.error.inj h).symm⟩
  · split at h
    · cases h
    · exact ⟨_, (Except.error.inj h).symm⟩

theorem step_of_executes {fr : Frame} {name : String} {block : Block}
    (h : m.Executes fr name block) : step m = instruction fr block (m.begun fr name) := by
  have running : (!m.terminated) = true := by rw [h.running, Bool.not_false]
  unfold step
  rw [Action.apply_bind_of_ok (Action.apply_get m),
    Action.apply_bind_of_ok ((Action.need_eq_ok_iff (u := ())).2 ⟨running, rfl⟩),
    Action.apply_bind_of_ok (frame_eq_ok_iff.2 ⟨rfl, h.top⟩),
    Action.apply_bind_of_ok (Action.ofExcept_eq_iff.2 ⟨h.current, rfl⟩)]
  exact Action.apply_bind_of_ok (beginStep_eq fr name m) _

/-- A step that is not made was not to be made: the execution is over, or there is nowhere to make
it. -/
theorem step_eq_defect_of_not_executes (h : ∀ fr name block, ¬m.Executes fr name block) :
    ∃ d, step m = (.error (.defect d), m) := by
  unfold step
  rw [Action.apply_bind_of_ok (Action.apply_get m)]
  cases running : m.terminated with
  | true =>
      exact ⟨.alreadyTerminated, Action.apply_bind_of_error rfl _⟩
  | false =>
      rw [Bool.not_false, Action.apply_bind_of_ok ((Action.need_eq_ok_iff (u := ())).2 ⟨rfl, rfl⟩)]
      cases stack : m.stack with
      | nil => exact ⟨.noFrame, Action.apply_bind_of_error (frame_of_nil stack) _⟩
      | cons fr rest =>
          rw [Action.apply_bind_of_ok (frame_eq_ok_iff.2 ⟨rfl, rest, stack⟩)]
          cases current : currentBlock fr with
          | error e =>
              obtain ⟨d, rfl⟩ := currentBlock_eq_error current
              exact ⟨d, Action.apply_bind_of_error (Action.ofExcept_eq_iff.2 ⟨rfl, rfl⟩) _⟩
          | ok at_ => exact absurd ⟨running, ⟨rest, stack⟩, current⟩ (h fr at_.1 at_.2)

/-- A step that succeeds is made somewhere. -/
theorem exists_executes (h : step m = (.ok (), m')) :
    ∃ fr name block, m.Executes fr name block := by
  refine Classical.byContradiction fun none => ?_
  obtain ⟨d, failed⟩ := step_eq_defect_of_not_executes fun fr name block executes =>
    none ⟨fr, name, block, executes⟩
  obtain ⟨⟨⟩, -⟩ := Prod.mk.inj (failed.symm.trans h)

/-! ## Runs -/

theorem run_of_terminated {k : Machine} {limit : Int}
    (h : runFor (limit - m.steps).toNat m = (.terminated, k)) :
    run limit m = (.ok (), { k.leave with terminated := true }) := by
  rw [run, h]

theorem run_of_fault {k : Machine} {limit : Int} {e : Fault} (other : e ≠ .terminated)
    (h : runFor (limit - m.steps).toNat m = (e, k)) : run limit m = (.error e, k.leave) := by
  rw [run, h]
  cases e with
  | terminated => exact absurd rfl other
  | _ => rfl

end Machine

end AbstractMachine
