/-
# AbstractMachine.Proofs.Machine.Lasting — what no instruction can take away

An instruction has few ways to change a machine. It may evaluate, which the outline of the machine
does not show; it may call memory, but never to free a function; it may change the stack; and it may
print a line. A property that survives these (`Lasting`) survives every instruction, and every step
but for the counting of it, whether it fails or not. Nothing has to be known for this of what an
instruction evaluates or stores.

One such property is that a machine comes `Later` than another one: what was printed stays printed,
in that order, and the number of steps, the chooser and the predictor are the same.
-/
import AbstractMachine.Proofs.Machine.Foundation

namespace AbstractMachine

namespace Machine

variable {m m' : Machine} {p : Pointer} {α β : Type}

/-- A machine that has printed one more line. -/
def printed (m : Machine) (line : String) (toStderr : Bool) : Machine :=
  if toStderr then { m with stderr := m.stderr ++ [line] }
  else { m with stdout := m.stdout ++ [line] }

/-- A call that does not free the memory of a function. -/
def SparesFunctions : Memory.Call → Prop
  | .deallocate _ _ _ kind => kind ≠ .function
  | _ => True

/-- A property of machines that is kept by all that an instruction is made of. -/
structure Lasting (I : Machine → Prop) : Prop where
  numbered : ∀ {m}, I m → m.store.memory.Numbered
  evolved : ∀ {m m'}, I m → m'.outline = m.outline → I m'
  called : ∀ {m mem c}, I m → m.store.memory.after c = mem → SparesFunctions c → ∀ journal,
    I (m.withMemory mem journal)
  stack : ∀ {m}, I m → ∀ stack, I { m with stack }
  noted : ∀ {m}, I m → ∀ journal, I { m with store.journal := journal }
  printed : ∀ {m}, I m → ∀ line toStderr, I (m.printed line toStderr)

/-- An action keeps a property, whether it fails or not. -/
def Lasts (I : Machine → Prop) (x : Action Machine α) : Prop :=
  Action.Keeps I x (fun _ => True) fun _ _ => True

variable {I : Machine → Prop}

namespace Lasts

variable {x : Action Machine α} {f : α → Action Machine β}

theorem seq (hx : Lasts I x) (hf : ∀ a, Lasts I (f a)) : Lasts I (x >>= f) :=
  Action.Keeps.bind hx fun a _ => hf a

theorem nothing {a : α} : Lasts I (pure a : Action Machine α) :=
  Action.Keeps.pure trivial

theorem throw {e : Fault} : Lasts I (throw e : Action Machine α) :=
  Action.Keeps.throw fun _ _ => trivial

theorem ofExcept {e : Except Fault α} : Lasts I (Action.ofExcept e) :=
  Action.Keeps.ofExcept (fun _ _ => trivial) fun _ _ _ _ => trivial

theorem need {c : Bool} {e : Fault} : Lasts I (Action.need c e) :=
  ofExcept

theorem get : Lasts I (get : Action Machine Machine) :=
  Action.Keeps.mono Action.Keeps.get fun _ _ => trivial

theorem getTarget : Lasts I Machine.getTarget :=
  seq get fun _ => nothing

theorem ask {g : Machine → Except Fault α} : Lasts I (Action.ask g) :=
  Action.Keeps.ask (fun _ _ _ _ => trivial) fun _ _ _ _ => trivial

theorem frame : Lasts I Machine.frame := by
  refine seq get fun m => ?_
  cases m.stack with
  | nil => exact throw
  | cons f rest => exact nothing

theorem alter {change : Machine → Machine} (h : ∀ m, I m → I (change m)) :
    Lasts I (modify change : Action Machine PUnit) :=
  Action.Meets.modify fun m hm => ⟨h m hm, trivial⟩

theorem findFunction (name : String) : Lasts I (Machine.findFunction name) := by
  refine seq get fun m => ?_
  cases m.program.functions.find? name with
  | none => exact throw
  | some f => exact nothing

theorem newFrame (name : String) : Lasts I (Machine.newFrame name) :=
  seq (findFunction name) fun _ => nothing

end Lasts

namespace Lasting

variable (lasting : Lasting I)

include lasting

/-! ## Parts of instructions -/

/-- An evaluation keeps the outline of a machine. -/
theorem evaluates {x : Action Machine α} {U : α → Prop}
    (h : ∀ m : Machine, m.store.memory.Numbered → Evaluates (fun _ => True) m x U) : Lasts I x where
  ok {m m' a} hm run := by
    obtain ⟨evolved, -⟩ := (h m (lasting.numbered hm)).ok (.refl fun _ _ => trivial) run
    exact ⟨lasting.evolved hm evolved.outline, trivial⟩
  error {m m' e} hm run := by
    obtain ⟨evolved, -⟩ := (h m (lasting.numbered hm)).error (.refl fun _ _ => trivial) run
    exact ⟨lasting.evolved hm evolved.outline, trivial⟩

theorem evalValue (e : ValueExpr) : Lasts I (evalValue e) :=
  lasting.evaluates fun _ numbered => evaluates_evalValue numbered (fun _ _ => trivial)
    (fun _ _ _ _ _ => trivial) e e.in_full

theorem evalPlace (p : PlaceExpr) : Lasts I (evalPlace p) :=
  lasting.evaluates fun _ numbered => evaluates_evalPlace numbered (fun _ _ => trivial)
    (fun _ _ _ _ _ => trivial) p p.in_full

theorem evalAll (es : List ValueExpr) : Lasts I (evalAll es) :=
  lasting.evaluates fun _ numbered => evaluates_evalAll numbered (fun _ _ => trivial)
    (fun _ _ _ _ _ => trivial) es (ValueExpr.allIn_full es)

theorem typedLoad (p : Pointer) (place : PlaceTy) : Lasts I (onStore (Store.typedLoad p place)) :=
  lasting.evaluates fun _ _ => evaluates_typedLoad fun _ _ => trivial

theorem typedStore (p : Pointer) (v : Value) (place : PlaceTy) :
    Lasts I (onStore (Store.typedStore p v place)) :=
  lasting.evaluates fun _ numbered =>
    evaluates_typedStore numbered (fun _ _ => trivial) fun _ _ => trivial

theorem deinit (p : Pointer) (place : PlaceTy) : Lasts I (onStore (Store.deinit p place)) :=
  lasting.evaluates fun _ numbered => evaluates_deinit numbered fun _ _ => trivial

theorem offsetInBounds (p : Pointer) (offset : Int) : Lasts I (Machine.offsetInBounds p offset) :=
  lasting.evaluates fun _ _ => Evaluates.offsetInBounds fun _ _ => trivial

theorem expose (p : Pointer) : Lasts I (onStore (Store.expose p)) :=
  lasting.evaluates fun _ _ => Evaluates.expose fun _ _ => trivial

theorem fromAddr (addr : Int) : Lasts I (Machine.fromAddr addr) :=
  lasting.evaluates fun _ _ => Evaluates.fromAddr addr

theorem allocate (size align : Int) (kind : AllocKind) :
    Lasts I (onStore (Store.allocate size align kind)) where
  ok {m m' p} hm run := by
    obtain ⟨mem, journal, made, rfl⟩ := onStore_allocate_eq_ok run
    have called : m.store.memory.after (.allocate size align kind) = mem := by
      rw [Memory.after, made]
    exact ⟨lasting.called hm called trivial journal, trivial⟩
  error {m m' e} hm run := by
    obtain ⟨mem, refused, rfl⟩ := onStore_allocate_eq_error run
    have called : m.store.memory.after (.allocate size align kind) = mem := by
      rw [Memory.after, refused]
    exact ⟨lasting.called hm called trivial _, trivial⟩

theorem deallocate (p : Pointer) (size align : Int) {kind : AllocKind} (spared : kind ≠ .function) :
    Lasts I (onStore (Store.deallocate p size align kind)) where
  ok {m m' u} hm run := by
    obtain ⟨mem, journal, freed, rfl⟩ := onStore_deallocate_eq_ok run
    have called : m.store.memory.after (.deallocate p size align kind) = mem := by
      rw [Memory.after, freed, Memory.orSame]
    exact ⟨lasting.called hm called spared journal, trivial⟩
  error {m m' e} hm run := by
    obtain ⟨-, rfl⟩ := onStore_deallocate_eq_error run
    exact ⟨hm, trivial⟩

theorem note (e : Event) : Lasts I (Machine.note e) :=
  .alter (fun m hm => lasting.noted hm (m.store.journal.note e))

theorem print (line : String) (toStderr : Bool) : Lasts I (Machine.print line toStderr) :=
  .alter fun _ hm => lasting.printed hm line toStderr

theorem modifyFrame (change : Frame → Frame) : Lasts I (Machine.modifyFrame change) :=
  .alter fun _ hm => lasting.stack hm _

theorem push (f : Frame) :
    Lasts I (modify fun m => { m with stack := f :: m.stack } : Action Machine PUnit) :=
  .alter fun _ hm => lasting.stack hm _

theorem popFrame : Lasts I Machine.popFrame := by
  refine .seq .get fun m => ?_
  cases m.stack with
  | nil => exact .throw
  | cons f rest => exact .seq (.alter fun _ hm => lasting.stack hm _) fun _ => .nothing

theorem beginLocal (f : Frame) (name : String) : Lasts I (beginLocal f name) :=
  .seq .need fun _ => .seq .ofExcept fun _ => .seq .getTarget fun _ =>
    .seq (lasting.allocate _ _ _) fun _ => .nothing

theorem freeLocal (f : Frame) (name : String) (p : Pointer) : Lasts I (freeLocal f name p) :=
  .seq .ofExcept fun _ => .seq .getTarget fun _ => lasting.deallocate _ _ _ nofun

theorem freeLocals (f : Frame) (entries : List (String × Pointer)) :
    Lasts I (freeLocals f entries) := by
  induction entries with
  | nil => exact .nothing
  | cons e rest ih => exact .seq (lasting.freeLocal f e.1 e.2) fun _ => ih

theorem storageLive (name : String) : Lasts I (storageLive name) :=
  .seq .frame fun f => .seq (lasting.beginLocal f name) fun _ => lasting.modifyFrame _

theorem storageDead (name : String) : Lasts I (storageDead name) := by
  refine .seq .frame fun f => ?_
  cases f.locals.find? name with
  | none => exact .throw
  | some p => exact .seq (lasting.modifyFrame _) fun _ => lasting.freeLocal f name p

theorem jump (block : String) : Lasts I (jump block) :=
  .seq .frame fun _ => .seq .need fun _ => lasting.modifyFrame _

theorem storeTag (p : Pointer) (align : Int) (writes : List TagWrite) :
    Lasts I (storeTag p align writes) := by
  induction writes with
  | nil => exact .nothing
  | cons w rest ih =>
      exact .seq (lasting.offsetInBounds _ _) fun _ => .seq (lasting.typedStore _ _ _) fun _ => ih

theorem printAll (toStderr : Bool) (arguments : List (Value × Ty)) :
    Lasts I (printAll toStderr arguments) := by
  induction arguments with
  | nil => exact .nothing
  | cons a rest ih => exact .seq .ofExcept fun line => .seq (lasting.print _ _) fun _ => ih

theorem performIntrinsic (op : IntrinsicOp) (arguments : List (Value × Ty)) :
    Lasts I (performIntrinsic op arguments) := by
  unfold Machine.performIntrinsic
  split
  · exact .seq (lasting.printAll _ _) fun _ => .nothing
  · exact .seq (lasting.printAll _ _) fun _ => .nothing
  · exact .throw
  · exact .throw
  · exact .seq .ofExcept fun _ => .seq .ofExcept fun _ =>
      .seq (lasting.allocate _ _ _) fun _ => .nothing
  · exact .seq .ofExcept fun _ => .seq .ofExcept fun _ => .seq .ofExcept fun _ =>
      .seq (lasting.deallocate _ _ _ nofun) fun _ => .nothing
  · exact .seq .ofExcept fun _ => .seq (lasting.expose _) fun _ => .seq .getTarget fun _ => .nothing
  · exact .seq .ofExcept fun addr => .seq .getTarget fun _ => .seq .ofExcept fun _ =>
      .seq .need fun _ => .seq (lasting.fromAddr addr) fun _ => .nothing
  · exact .seq .need fun _ => .nothing
  · exact .throw

theorem evalResult (place : Option PlaceExpr) : Lasts I (evalResult place) := by
  cases place with
  | none => exact .nothing
  | some p => exact .seq (lasting.evalPlace p) fun _ => .nothing

theorem storeResult (v : Value) (ty : Ty) (place : Option (Pointer × PlaceTy)) :
    Lasts I (storeResult v ty place) := by
  cases place with
  | none => exact .nothing
  | some r => exact .seq .need fun _ => lasting.typedStore _ _ _

theorem passArguments : ∀ (arguments : List (ValueExpr × ArgAbi))
    (params : List (String × ArgAbi)) (callee : Frame),
    Lasts I (passArguments arguments params callee)
  | (e, given) :: arguments, (name, expected) :: params, callee => by
      rw [Machine.passArguments]
      refine .seq (lasting.evalValue e) fun a => .seq .need fun _ => .seq .ofExcept fun place => ?_
      refine .seq .getTarget fun target => .seq .need fun _ => ?_
      refine .seq (lasting.beginLocal callee name) fun b => ?_
      refine .seq (lasting.typedStore _ _ _) fun _ => ?_
      exact passArguments arguments params b.2
  | [], params, callee => by
      rw [passArguments_nil]
      exact .nothing
  | a :: arguments, [], callee => by
      rw [passArguments_of_no_params]
      exact .nothing

theorem deliver (v : Value) (ty : Ty) (r : Option (Pointer × PlaceTy)) :
    Lasts I (deliver v ty r) := by
  cases r with
  | none => exact .nothing
  | some q => exact lasting.typedStore _ _ _

omit lasting in
theorem resume : Lasts I resume := by
  refine .seq .get fun m => ?_
  cases m.stack with
  | nil => exact .throw
  | cons caller rest => exact .need

/-! ## Instructions -/

theorem execute (s : Statement) : Lasts I (execute s) := by
  cases s with
  | assign destination source =>
      exact .seq (lasting.evalValue source) fun _ => .seq (lasting.evalPlace destination) fun _ =>
        lasting.typedStore _ _ _
  | finalize place =>
      exact .seq (lasting.evalPlace place) fun _ => .seq (lasting.typedLoad _ _) fun _ => .nothing
  | live name => exact lasting.storageLive name
  | dead name => exact lasting.storageDead name
  | setDiscriminant place d =>
      refine .seq (lasting.evalPlace place) ?_
      rintro ⟨p, ⟨ty, align⟩⟩
      cases ty with
      | enum e => exact .seq .ofExcept fun variant => lasting.storeTag p align variant.tagger
      | _ => exact .throw
  | deinit place => exact .seq (lasting.evalPlace place) fun _ => lasting.deinit _ _
  | validate place =>
      refine .seq (lasting.evalPlace place) fun _ => .seq (lasting.typedLoad _ _) fun v => ?_
      refine .seq (lasting.evaluates (U := fun _ => True) fun _ _ => ?_) fun w =>
        lasting.typedStore _ _ _
      exact .ask (fun _ _ _ _ => trivial) fun _ => Memory.failsIn_retagValue _ fun _ _ => trivial
  | mention place => exact .seq (lasting.evalPlace place) fun _ => .nothing

theorem execIntrinsic (op : IntrinsicOp) (arguments : List ValueExpr) (result : Option PlaceExpr)
    (next : Option String) : Lasts I (execIntrinsic op arguments result next) := by
  refine .seq (lasting.evalAll arguments) fun vs => .seq (lasting.evalResult result) fun place => ?_
  refine .seq (lasting.performIntrinsic op vs) fun a => ?_
  refine .seq (lasting.storeResult _ _ place) fun _ => ?_
  cases next with
  | none => exact .throw
  | some block => exact lasting.jump block

theorem execCall (callee : ValueExpr) (arguments : List (ValueExpr × ArgAbi))
    (result : PlaceExpr) (resultAbi : ArgAbi) (next : Option String)
    (convention : CallingConvention) :
    Lasts I (execCall callee arguments result resultAbi next convention) := by
  refine .seq (lasting.evalValue callee) fun a => .seq .ask fun name => ?_
  refine .seq (.newFrame name) fun f => .seq .need fun _ => .seq .need fun _ => ?_
  refine .seq .ofExcept fun resultPlace => .seq (lasting.beginLocal _ _) fun b => ?_
  refine .seq (lasting.evalPlace result) fun r => .seq .need fun _ => .seq .getTarget fun _ => ?_
  refine .seq .need fun _ => .seq (lasting.passArguments arguments _ _) fun f => ?_
  refine .seq .frame fun caller => .seq (lasting.modifyFrame _) fun _ => ?_
  exact .seq (lasting.push f) fun _ => lasting.note _

theorem execReturn : Lasts I execReturn := by
  refine .seq lasting.popFrame fun f => ?_
  cases f.locals.find? f.function.result with
  | none => exact .throw
  | some p =>
      refine .seq .ofExcept fun place => .seq (lasting.typedLoad _ _) fun v => ?_
      refine .seq (lasting.deliver v place.ty f.result) fun _ => ?_
      exact .seq (lasting.freeLocals f _) fun _ => .seq (lasting.note _) fun _ => resume

theorem finish (t : Terminator) : Lasts I (finish t) := by
  cases t with
  | goto block => exact lasting.jump block
  | ite condition onTrue onFalse =>
      refine .seq (lasting.evalValue condition) ?_
      rintro ⟨v, _⟩
      cases v with
      | bool b => exact lasting.jump _
      | _ => exact .throw
  | switch value cases fallback =>
      refine .seq (lasting.evalValue value) ?_
      rintro ⟨v, _⟩
      cases v with
      | int n => exact lasting.jump _
      | _ => exact .throw
  | unreachable => exact .throw
  | call callee arguments result resultAbi next convention => exact lasting.execCall ..
  | ret => exact lasting.execReturn
  | intrinsic op arguments result next => exact lasting.execIntrinsic ..

/-- Every instruction keeps what lasts. -/
theorem instruction (f : Frame) (block : Block) : Lasts I (instruction f block) := by
  unfold Machine.instruction
  split
  · exact .seq (lasting.execute _) fun _ => lasting.modifyFrame _
  · exact lasting.finish _

/-- The beginning of an execution keeps what lasts, if the addresses of functions do not matter. -/
theorem boot (placed : ∀ {m}, I m → ∀ functions, I { m with functions }) : Lasts I boot := by
  have place (names : List String) : Lasts I (placeFunctions names) := by
    induction names with
    | nil => exact .nothing
    | cons name rest ih =>
        exact .seq (lasting.allocate _ _ _) fun p =>
          .seq (.alter fun _ hm => placed hm _) fun _ => ih
  refine .seq .get fun m => .seq (place _) fun _ => .seq .ofExcept fun function => ?_
  exact .seq (.newFrame _) fun f => .seq (lasting.beginLocal f _) fun _ => lasting.push _

end Lasting

/-! ## What was printed -/

/-- A machine has the output of another one, and perhaps more, the same number of steps, and asks the
same chooser and predictor. -/
structure Later (o m : Machine) : Prop where
  laid : m.store.memory.Laid
  stdout : o.stdout <+: m.stdout
  stderr : o.stderr <+: m.stderr
  steps : m.steps = o.steps
  chooser : m.store.memory.chooser = o.store.memory.chooser
  predictor : m.store.casts.predictor = o.store.casts.predictor

theorem lasting_later (o : Machine) : Lasting (Later o) where
  numbered h := h.laid.numbered
  evolved {m m'} h same := by
    have memory : m'.outline.store.memory = m.outline.store.memory := by rw [same]
    have stdout : m'.stdout = m.stdout := show m'.outline.stdout = m.outline.stdout by rw [same]
    have stderr : m'.stderr = m.stderr := show m'.outline.stderr = m.outline.stderr by rw [same]
    have steps : m'.outline.steps = m.outline.steps := by rw [same]
    have chooser : m'.outline.store.memory.chooser = m.outline.store.memory.chooser := by rw [same]
    have predictor : m'.outline.store.casts.predictor = m.outline.store.casts.predictor := by
      rw [same]
    exact {
      laid := h.laid.of_outline_eq memory
      stdout := stdout ▸ h.stdout
      stderr := stderr ▸ h.stderr
      steps := steps.trans h.steps
      chooser := chooser.trans h.chooser
      predictor := predictor.trans h.predictor }
  called {m mem c} h called _ journal := by
    have chooser := m.store.memory.chooser_after c
    rw [called] at chooser
    exact { h with
      laid := called ▸ h.laid.after c
      chooser := chooser.trans h.chooser }
  stack h _ := { h with }
  noted h _ := { h with }
  printed {m} h line toStderr := by
    cases toStderr with
    | true => exact { h with stderr := h.stderr.trans (List.prefix_append _ _) }
    | false => exact { h with stdout := h.stdout.trans (List.prefix_append _ _) }

/-- What a step leaves of a machine that it was made in, whether it fails or not: the step was
counted, and nothing was taken back. -/
theorem later_of_executes {f : Frame} {name : String} {block : Block} {answer : Except Fault Unit}
    (laid : m.store.memory.Laid) (executes : m.Executes f name block)
    (run : step m = (answer, m')) : Later { m with steps := m.steps + 1 } m' := by
  have begun : Later { m with steps := m.steps + 1 } (m.begun f name) :=
    ⟨laid, List.prefix_rfl, List.prefix_rfl, rfl, rfl, rfl⟩
  rw [step_of_executes executes] at run
  cases answer with
  | ok u => exact (((lasting_later _).instruction f block).ok begun run).1
  | error e => exact (((lasting_later _).instruction f block).error begun run).1

/-- What the beginning of an execution leaves. -/
theorem later_of_boot {o : Machine} {answer : Except Fault Unit} (laid : o.store.memory.Laid)
    (run : boot o = (answer, m)) : Later o m := by
  have begun : Later o o := ⟨laid, List.prefix_rfl, List.prefix_rfl, rfl, rfl, rfl⟩
  have boots : Lasts (Later o) boot := (lasting_later o).boot fun h _ => { h with }
  cases answer with
  | ok u => exact (boots.ok begun run).1
  | error e => exact (boots.error begun run).1

end Machine

end AbstractMachine
