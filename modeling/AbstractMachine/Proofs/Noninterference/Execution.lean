/-
# AbstractMachine.Proofs.Noninterference.Execution — runs that differ in addresses

Every instruction of a blind program that calls no address mirrors itself: from twin machines it
gets to twin machines, or fails with the same fault, unless a chooser fails. So does every step and,
by induction, every run. The one place where a frame could tell the machines apart is a call, since
functions are called by their addresses. These are other ones in the two machines but distinct in
each of them, so the name that was looked up is found again.

Functions get their addresses before the first step. Then their tables still grow, and what keeps
the addresses distinct is that each is that of a live allocation.
-/
import Mathlib.Data.List.Pairwise
import AbstractMachine.Proofs.Fragment
import AbstractMachine.Proofs.Machine.Foundation
import AbstractMachine.Proofs.Noninterference.Evaluation

namespace AbstractMachine

variable {target : Target} {W : List Site} {f g : Frame} {name : String} {p q : Pointer}
  {m n m' n' : Machine} {α : Type}

namespace Machine

/-! ## Locals -/

/-- A local begins to live in both frames, at a site of its own. -/
theorem mirrors_beginLocal (twins : f.Twins target W g) (name : String) :
    Mirrors target W (fun W' a b => f.Slot target W' name a.1 b.1 ∧ a.2.Twins target W' b.2)
      (beginLocal f name) (beginLocal g name) := by
  unfold beginLocal
  rw [twins.locals.contains, twins.localTy]
  refine .bindNeed fun _ => .bindExcept fun place declared => .bindTarget ?_
  refine Mirrors.allocate.bind fun W' p q le twin => .pure fun W'' le' => ?_
  have slot : f.Slot target W'' name p q :=
    ⟨place, declared, rfl, f.inward_of_localTy twins.blind declared, twin.mono le'⟩
  have twins := twins.mono (le.trans le')
  exact ⟨slot, { twins with locals := twins.locals.insert slot }⟩

theorem mirrors_freeLocal (twins : f.Twins target W g) (slot : f.Slot target W name p q) :
    Mirrors target W Whatever (freeLocal f name p) (freeLocal g name q) := by
  unfold freeLocal
  obtain ⟨place, declared, twin⟩ := slot
  rw [twins.localTy, declared]
  refine .bindExcept fun place' same => .bindTarget ?_
  obtain rfl := Except.ok.inj same
  exact .deallocate twin.twin _ _

theorem mirrors_freeLocals (twins : f.Twins target W g) {entries entries' : List (String × Pointer)}
    (slots : List.Forall₂ (fun e d => d.1 = e.1 ∧ f.Slot target W e.1 e.2 d.2) entries entries') :
    Mirrors target W Whatever (freeLocals f entries) (freeLocals g entries') := by
  induction slots with
  | nil => exact .nothing
  | @cons e d _ _ slot _ ih =>
      obtain ⟨name, p⟩ := e
      obtain ⟨_, q⟩ := d
      obtain ⟨rfl, slot⟩ := slot
      exact (mirrors_freeLocal twins slot).seq fun _ _ => ih

/-! ## Statements -/

theorem mirrors_storageLive (name : String) :
    Mirrors target W Whatever (storageLive name) (storageLive name) :=
  Mirrors.frame.bind fun _ _ _ _ twins => (mirrors_beginLocal twins name).bind
    fun _ _ _ _ begun => .modifyFrame fun _ _ _ le _ => begun.2.mono le

theorem mirrors_storageDead (name : String) :
    Mirrors target W Whatever (storageDead name) (storageDead name) := by
  refine Mirrors.frame.bind fun W' f g _ twins => ?_
  obtain ⟨left, right⟩ | ⟨p, q, left, right, slot⟩ := twins.locals.find? name
  · rw [left, right]
    exact .throw
  · rw [left, right]
    refine Mirrors.seq (.modifyFrame fun _ _ _ _ twins => ?_) fun _ _ =>
      mirrors_freeLocal twins slot
    exact { twins with locals := twins.locals.erase name }

/-- Tags are written inside the enum. -/
theorem mirrors_storeTag {total align : Int} (twin : p.Twin W total align q)
    {writes : List TagWrite} (within : ∀ w ∈ writes, w.extent.Within total) :
    Mirrors target W Whatever (storeTag p align writes) (storeTag q align writes) := by
  induction writes with
  | nil => exact .nothing
  | cons w rest ih =>
      obtain ⟨head, tail⟩ := List.forall_mem_cons.1 within
      obtain ⟨start, stop⟩ := head.between
      obtain ⟨power, dvd, dvd'⟩ := powerOfTwo_restrictAlign twin.powerOfTwo w.offset
      refine (Mirrors.offsetInBounds twin start stop power dvd dvd').bind fun _ _ _ le twin => ?_
      exact (Mirrors.typedStore twin _ _).seq fun _ _ => (ih tail).grow le

/-- Every statement mirrors itself. -/
theorem mirrors_execute {s : Statement} (blind : s.Blind) :
    Mirrors target W Whatever (execute s) (execute s) := by
  cases s with
  | assign destination source =>
      refine (mirrors_evalValue source blind.2).bindShared ?_
      rintro ⟨v, _⟩ -
      refine (mirrors_evalPlace destination blind.1).bind ?_
      rintro W' ⟨p, ⟨ty, align⟩⟩ ⟨q, _⟩ - ⟨rfl, -, twin⟩
      exact .typedStore twin ty v
  | finalize place =>
      refine (mirrors_evalPlace place blind).bind ?_
      rintro W' ⟨p, ⟨ty, align⟩⟩ ⟨q, _⟩ - ⟨rfl, -, twin⟩
      exact (Mirrors.typedLoad twin ty).bindShared fun _ _ => .nothing
  | live name => exact mirrors_storageLive name
  | dead name => exact mirrors_storageDead name
  | setDiscriminant place d =>
      refine (mirrors_evalPlace place blind).bind ?_
      rintro W' ⟨p, ⟨ty, align⟩⟩ ⟨q, _⟩ - ⟨rfl, inward, twin⟩
      cases ty with
      | enum e =>
          refine .bindExcept fun variant found => mirrors_storeTag twin ?_
          obtain ⟨n, -, at_⟩ := elementAt_eq_ok_iff.1 found
          exact inward.here.tags_within variant (List.mem_of_getElem? at_)
      | _ => exact .throw
  | deinit place =>
      refine (mirrors_evalPlace place blind).bind ?_
      rintro W' ⟨p, ⟨ty, align⟩⟩ ⟨q, _⟩ - ⟨rfl, -, twin⟩
      exact .deinit twin ty
  | validate place =>
      refine (mirrors_evalPlace place blind).bind ?_
      rintro W' ⟨p, ⟨ty, align⟩⟩ ⟨q, _⟩ - ⟨rfl, inward, twin⟩
      refine (Mirrors.typedLoad twin ty).bindShared fun v _ => ?_
      have retagged : Mirrors target W' (Shared fun _ => True)
          (onStore (Store.ask fun mem => mem.retagValue ty v))
          (onStore (Store.ask fun mem => mem.retagValue ty v)) := by
        refine .ask fun W'' mem mem' _ _ => ?_
        rw [Memory.retagValue_eq (inward.imp fun _ t => t.not_ptr) (m := mem) (n := mem')]
        exact .refl fun _ _ => ⟨rfl, trivial⟩
      exact retagged.bindShared fun w _ => .typedStore twin ty w
  | mention place => exact (mirrors_evalPlace place blind).whatever.seq fun _ _ => .nothing

/-! ## Intrinsics -/

theorem mirrors_printAll (toStderr : Bool) (arguments : List (Value × Ty)) :
    Mirrors target W Whatever (printAll toStderr arguments) (printAll toStderr arguments) := by
  induction arguments with
  | nil => exact .nothing
  | cons a rest ih =>
      exact .bindExcept fun line _ => (Mirrors.print line toStderr).seq fun _ _ => ih

/-- An intrinsic that makes no pointers yields the same in both machines. -/
theorem mirrors_performIntrinsic {op : IntrinsicOp} (blind : op.Blind)
    (arguments : List (Value × Ty)) :
    Mirrors target W (Shared fun _ => True) (performIntrinsic op arguments)
      (performIntrinsic op arguments) := by
  cases op with
  | printStdout => exact (mirrors_printAll false arguments).seq fun _ _ => .answer trivial
  | printStderr => exact (mirrors_printAll true arguments).seq fun _ _ => .answer trivial
  | exit | panic =>
      cases arguments with
      | nil => exact .throw
      | cons => exact .throw
  | assume =>
      rcases arguments with _ | ⟨⟨v, ty⟩, _ | _⟩
      · exact .throw
      · cases v with
        | bool holds => exact .bindNeed fun _ => .answer trivial
        | _ => exact .throw
      · cases v <;> exact .throw
  | allocate | deallocate | exposeProvenance | withExposedProvenance => exact absurd blind not_false

theorem mirrors_jump (block : String) : Mirrors target W Whatever (jump block) (jump block) := by
  refine Mirrors.frame.bind fun W' f g _ twins => ?_
  rw [twins.function, twins.name]
  refine .bindNeed fun _ => .modifyFrame fun _ _ _ _ twins => ?_
  exact { twins with block := rfl, index := rfl }

theorem mirrors_evalResult {result : Option PlaceExpr} (blind : ∀ place ∈ result, place.Blind) :
    Mirrors target W (fun W' => Option.Rel (PlaceTwin target W')) (evalResult result)
      (evalResult result) := by
  cases result with
  | none => exact .pure fun _ _ => .none
  | some place =>
      exact (mirrors_evalPlace place (blind place rfl)).bind fun _ _ _ _ twin =>
        .pure fun _ le => .some (twin.mono le)

theorem mirrors_storeResult (v : Value) (ty : Ty) {r s : Option (Pointer × PlaceTy)}
    (twin : Option.Rel (PlaceTwin target W) r s) :
    Mirrors target W Whatever (storeResult v ty r) (storeResult v ty s) := by
  cases twin with
  | none => exact .nothing
  | @some a b twin =>
      obtain ⟨p, ⟨ty, align⟩⟩ := a
      obtain ⟨q, _⟩ := b
      obtain ⟨rfl, -, twin⟩ := twin
      exact .bindNeed fun _ => .typedStore twin ty v

theorem mirrors_execIntrinsic {op : IntrinsicOp} {arguments : List ValueExpr}
    {result : Option PlaceExpr} {next : Option String}
    (blind : (Terminator.intrinsic op arguments result next).Blind) :
    Mirrors target W Whatever (execIntrinsic op arguments result next)
      (execIntrinsic op arguments result next) := by
  obtain ⟨hop, harguments, hresult⟩ := blind
  refine (mirrors_evalAll arguments (ValueExpr.allBlind_iff.2 harguments)).bindShared fun vs _ => ?_
  refine (mirrors_evalResult hresult).bind fun W' r s _ twin => ?_
  refine (mirrors_performIntrinsic hop vs).bindShared ?_
  rintro ⟨v, ty⟩ -
  refine (mirrors_storeResult v ty twin).seq fun _ _ => ?_
  cases next with
  | none => exact .throw
  | some block => exact mirrors_jump block

/-! ## Calls -/

/-- The address of a function is that of no other one. -/
theorem functionAt?_of_find? {addr : Int} (apart : Apart m.functions)
    (h : m.functions.find? name = some addr) : m.functionAt? addr = some name := by
  have there := Table.mem_entries_of_find? h
  unfold functionAt?
  cases found : m.functions.entries.find? (·.2 == addr) with
  | none => exact absurd (beq_self_eq_true addr) (List.find?_eq_none.1 found _ there)
  | some e =>
      have same := List.find?_some found
      have first := List.mem_of_find?_eq_some found
      by_contra other
      have distinct : e ≠ (name, addr) := by
        rintro rfl
        exact other rfl
      have : Std.Symm fun e d : String × Int => e.2 ≠ d.2 := ⟨fun _ _ h => h.symm⟩
      exact List.Pairwise.forall apart first there distinct (beq_iff_eq.1 same)

theorem evalValue_function_of_none (h : m.functions.find? name = none) :
    evalValue (.function name) m = (.error (.defect (.noFunction name)), m) := by
  rw [evalValue, Action.apply_bind_of_ok (Action.apply_get m), h]
  rfl

theorem evalValue_function_of_some {addr : Int} (h : m.functions.find? name = some addr) :
    evalValue (.function name) m = (.ok (.ptr ⟨addr, none⟩, .ptr .fn), m) := by
  rw [evalValue, Action.apply_bind_of_ok (Action.apply_get m), h]
  rfl

theorem ask_calledFunction {addr : Int} (apart : Apart m.functions)
    (h : m.functions.find? name = some addr) :
    (Action.ask fun m => m.calledFunction (.ptr ⟨addr, none⟩)) m = (.ok name, m) := by
  rw [Action.ask, calledFunction, functionAt?_of_find? apart h]

/-- The same function is called in both machines. -/
theorem mirrors_callee {V : List Site → α → α → Prop} {e : ValueExpr} (blind : e.BlindCallee)
    (named : ¬e.IsAddress) {k k' : String → Action Machine α}
    (hk : ∀ name, Mirrors target W V (k name) (k' name)) :
    Mirrors target W V
      (evalValue e >>= fun (v, _) => (Action.ask fun m => m.calledFunction v) >>= k)
      (evalValue e >>= fun (v, _) => (Action.ask fun m => m.calledFunction v) >>= k') := by
  cases e with
  | function name =>
      intro W' m n le twins
      obtain ⟨left, right⟩ | ⟨addr, addr', left, right, -⟩ := twins.functions.find? name
      · rw [Action.apply_bind_of_error (evalValue_function_of_none left),
          Action.apply_bind_of_error (evalValue_function_of_none right)]
        exact .both (List.prefix_refl W') twins (.error _)
      · -- Two addresses are looked up, and both lead back to the name.
        rw [Action.apply_bind_of_ok (evalValue_function_of_some left),
          Action.apply_bind_of_ok (evalValue_function_of_some right)]
        simp only [Action.apply_bind_of_ok (ask_calledFunction twins.left left),
          Action.apply_bind_of_ok (ask_calledFunction twins.right right)]
        exact hk name le twins
  | _ =>
      refine (mirrors_evalValue _ blind).bindShared ?_
      rintro ⟨v, _⟩ h
      cases v with
      | ptr p => exact absurd rfl (h.resolve_left named p)
      | _ => exact .throw

/-- Arguments are the same in both machines, and their places twins. -/
theorem mirrors_passArguments : ∀ (arguments : List (ValueExpr × ArgAbi))
    (params : List (String × ArgAbi)) {W : List Site} {f g : Frame}, f.Twins target W g →
    (∀ a ∈ arguments, a.1.Blind) →
    Mirrors target W (Frame.Twins target) (passArguments arguments params f)
      (passArguments arguments params g)
  | (e, given) :: arguments, (name, expected) :: params, W, f, g, twins, blind => by
      obtain ⟨head, tail⟩ := List.forall_mem_cons.1 blind
      rw [passArguments, passArguments]
      refine (mirrors_evalValue e head).bindShared ?_
      rintro ⟨v, ty⟩ -
      refine .bindNeed fun _ => ?_
      rw [twins.localTy]
      refine .bindExcept fun place declared => .bindTarget (.bindNeed fun _ => ?_)
      refine (mirrors_beginLocal twins name).bind ?_
      rintro W' ⟨p, f'⟩ ⟨q, g'⟩ - ⟨⟨place', declared', -, -, twin⟩, twins⟩
      obtain rfl := Except.ok.inj (declared.symm.trans declared')
      exact (Mirrors.typedStore twin ty v).seq fun _ _ =>
        mirrors_passArguments arguments params twins tail
  | [], params, W, f, g, twins, _ => by
      rw [passArguments_nil, passArguments_nil]
      exact .pure fun _ le => twins.mono le
  | a :: arguments, [], W, f, g, twins, _ => by
      rw [passArguments_of_no_params, passArguments_of_no_params]
      exact .pure fun _ le => twins.mono le

/-- A function begins in the same way in both machines. -/
theorem mirrors_newFrame (name : String) :
    Mirrors target W (Frame.Twins target) (newFrame name) (newFrame name) := by
  unfold newFrame findFunction
  rw [bind_assoc]
  refine .bindGet fun W' m n _ twins => ?_
  rw [twins.program]
  cases found : m.program.functions.find? name with
  | none => exact .throw
  | some function =>
      have there := Table.mem_entries_of_find? found
      have blind := twins.blind _ there
      have calls : ¬function.CallsAddress := fun calls => twins.calls ⟨_, there, calls⟩
      exact .pure fun _ _ => ⟨rfl, rfl, rfl, rfl, blind, calls, .nil, .none⟩

theorem mirrors_execCall {callee : ValueExpr} {arguments : List (ValueExpr × ArgAbi)}
    {result : PlaceExpr} {resultAbi : ArgAbi} {next : Option String}
    {convention : CallingConvention}
    (blind : (Terminator.call callee arguments result resultAbi next convention).Blind)
    (named : ¬callee.IsAddress) :
    Mirrors target W Whatever (execCall callee arguments result resultAbi next convention)
      (execCall callee arguments result resultAbi next convention) := by
  obtain ⟨hcallee, harguments, hresult⟩ := blind
  refine mirrors_callee hcallee named fun name => ?_
  refine (mirrors_newFrame name).bind fun W' f g _ twins => ?_
  rw [twins.function, twins.localTy]
  refine .bindNeed fun _ => .bindNeed fun _ => .bindExcept fun resultPlace _ => ?_
  refine (mirrors_beginLocal twins _).bind ?_
  rintro W' ⟨_, f'⟩ ⟨_, g'⟩ - ⟨-, twins⟩
  refine (mirrors_evalPlace result hresult).bind ?_
  rintro W'' ⟨p, place⟩ ⟨q, place'⟩ le twin
  obtain rfl : place' = place := twin.place
  have twins := twins.mono le
  rw [twins.function]
  refine .bindNeed fun _ => .bindTarget (.bindNeed fun _ => ?_)
  have awaiting : Frame.Twins target W'' { f' with result := some (p, place') }
      { g' with function := f'.function, result := some (q, place') } :=
    { twins with function := rfl, result := .some twin }
  refine (mirrors_passArguments arguments _ awaiting harguments).bind fun W' f g _ pushed => ?_
  refine Mirrors.frame.bind fun W'' caller caller' le _ => ?_
  refine Mirrors.seq (.modifyFrame fun _ _ _ _ twins => ?_) fun _ _ => ?_
  · exact { twins with block := rfl, index := rfl }
  · exact (Mirrors.push (pushed.mono le)).seq fun _ _ => .note _ _

/-! ## Returns -/

theorem mirrors_popFrame : Mirrors target W (Frame.Twins target) popFrame popFrame := by
  refine .bindGet fun W' m n _ twins => ?_
  obtain ⟨left, right⟩ | ⟨f, g, fs, gs, left, right, top, rest⟩ := twins.frames
  · rw [left, right]
    exact .throw
  · rw [left, right]
    refine Mirrors.seq (.alter fun _ _ _ le twins => ?_) fun _ _ =>
      .pure fun _ le => top.mono le
    exact twins.withStack (rest.imp fun _ _ twins => twins.mono le)

theorem mirrors_deliver (v : Value) (ty : Ty) {r s : Option (Pointer × PlaceTy)}
    (twin : Option.Rel (PlaceTwin target W) r s) :
    Mirrors target W Whatever (deliver v ty r) (deliver v ty s) := by
  cases twin with
  | none => exact .nothing
  | @some a b twin =>
      obtain ⟨p, place⟩ := a
      obtain ⟨q, _⟩ := b
      obtain ⟨rfl, -, twin⟩ := twin
      exact .typedStore twin ty v

/-- Both machines come to their end, or both go on. -/
theorem mirrors_resume : Mirrors target W Whatever resume resume := by
  refine .bindGet fun W' m n _ twins => ?_
  obtain ⟨left, right⟩ | ⟨f, g, _, _, left, right, top, -⟩ := twins.frames
  · rw [left, right]
    exact .throw
  · simp only [left, right, top.block]
    exact .need

theorem mirrors_execReturn : Mirrors target W Whatever execReturn execReturn := by
  refine mirrors_popFrame.bind fun W' f g _ twins => ?_
  rw [twins.function, twins.localTy]
  obtain ⟨left, right⟩ | ⟨p, q, left, right, place, declared, -, -, twin⟩ :=
    twins.locals.find? f.function.result
  · rw [left, right, twins.name]
    exact .throw
  · rw [left, right, declared]
    refine .bindExcept fun place' same => ?_
    obtain rfl := Except.ok.inj same
    refine (Mirrors.typedLoad twin place.ty).bindShared fun v _ => ?_
    refine (mirrors_deliver v place.ty twins.result).seq fun _ _ => ?_
    refine (mirrors_freeLocals twins twins.locals).seq fun _ _ => ?_
    exact (Mirrors.note _ _).seq fun _ _ => mirrors_resume

/-- Every terminator mirrors itself. -/
theorem mirrors_finish {t : Terminator} (blind : t.Blind) (calls : ¬t.CallsAddress) :
    Mirrors target W Whatever (finish t) (finish t) := by
  cases t with
  | goto block => exact mirrors_jump block
  | ite condition onTrue onFalse =>
      refine (mirrors_evalValue condition blind).bindShared ?_
      rintro ⟨v, _⟩ -
      cases v with
      | bool b => exact mirrors_jump _
      | _ => exact .throw
  | switch value cases fallback =>
      refine (mirrors_evalValue value blind).bindShared ?_
      rintro ⟨v, _⟩ -
      cases v with
      | int k => exact mirrors_jump _
      | _ => exact .throw
  | unreachable => exact .throw
  | call callee arguments result resultAbi next convention => exact mirrors_execCall blind calls
  | ret => exact mirrors_execReturn
  | intrinsic op arguments result next => exact mirrors_execIntrinsic blind

/-! ## Steps and runs -/

theorem mirrors_beginStep (f g : Frame) (block : String) :
    Mirrors target W Whatever (beginStep f block) (beginStep g block) := by
  refine Mirrors.seq (.alter fun W' m n _ twins => ?_) fun _ _ => .note _ _
  exact { twins.withStore (List.prefix_refl W') twins.memory with
    steps := congrArg (· + 1) twins.steps }

/-- Every step mirrors itself. -/
theorem mirrors_step : Mirrors target W Whatever step step := by
  refine .bindGet fun W' m n _ twins => ?_
  rw [twins.terminated]
  refine .bindNeed fun _ => Mirrors.frame.bind fun W'' f g _ twins => ?_
  rw [twins.currentBlock]
  refine .bindExcept fun (name, block) current => ?_
  have there := mem_blocks_of_currentBlock current
  have blind := twins.blind.blocks _ there
  have calls : ¬block.terminator.CallsAddress := fun calls => twins.calls ⟨_, there, calls⟩
  refine (mirrors_beginStep f g name).seq fun _ _ => ?_
  rw [twins.index]
  cases found : block.statements[f.index]? with
  | none => exact mirrors_finish blind.terminator calls
  | some s =>
      have hs := blind.statements s (List.mem_of_getElem? found)
      refine (mirrors_execute hs).seq fun _ _ => .modifyFrame fun _ _ _ _ twins => ?_
      exact { twins with index := congrArg (· + 1) twins.index }

theorem not_spoilt_step {limit : Nat} {e : Fault} (run : runFor (limit + 1) m = (e, m'))
    (served : m'.store.memory.Served) : ¬Spoilt (step m) := by
  rintro ⟨f, failed, blame⟩
  rw [runFor_of_step_error (Prod.ext failed rfl)] at run
  obtain ⟨-, rfl⟩ := Prod.mk.inj run
  exact blame served

/-- Runs of twin machines end with the same fault in twin machines, if no chooser fails. -/
theorem runFor_twins {limit : Nat} {e e' : Fault} (twins : Twins target W m n)
    (run : runFor limit m = (e, m')) (run' : runFor limit n = (e', n'))
    (served : m'.store.memory.Served) (served' : n'.store.memory.Served) :
    e' = e ∧ ∃ W', Twins target W' m' n' := by
  induction limit generalizing W m n with
  | zero =>
      -- Both have made all their steps, and the fault says how many.
      obtain ⟨rfl, rfl⟩ := Prod.mk.inj run
      obtain ⟨rfl, rfl⟩ := Prod.mk.inj run'
      exact ⟨by rw [twins.steps], W, twins⟩
  | succ limit ih =>
      obtain ⟨W', -, after, agree⟩ := (mirrors_step (List.prefix_refl W) twins).of_not_spoilt
        (not_spoilt_step run served) (not_spoilt_step run' served')
      rcases made : step m with ⟨x, m₁⟩
      rcases made' : step n with ⟨y, n₁⟩
      rw [made, made'] at after agree
      cases agree with
      | error f =>
          rw [runFor_of_step_error made] at run
          rw [runFor_of_step_error made'] at run'
          obtain ⟨rfl, rfl⟩ := Prod.mk.inj run
          obtain ⟨rfl, rfl⟩ := Prod.mk.inj run'
          exact ⟨rfl, W', after⟩
      | ok _ =>
          rw [runFor_of_step_ok made] at run
          rw [runFor_of_step_ok made'] at run'
          exact ih after run run'

theorem Twins.leave (h : Twins target W m n) : Twins target W m.leave n.leave :=
  h.withStore (List.prefix_refl W) h.memory

theorem memory_run {limit : Int} {e : Fault} (h : runFor (limit - m.steps).toNat m = (e, m')) :
    (run limit m).2.store.memory = m'.store.memory := by
  by_cases terminated : e = .terminated
  · subst terminated
    rw [run_of_terminated h]
    rfl
  · rw [run_of_fault terminated h]
    rfl

theorem run_twins {limit : Int} (twins : Twins target W m n)
    (served : (run limit m).2.store.memory.Served)
    (served' : (run limit n).2.store.memory.Served) :
    (run limit n).1 = (run limit m).1 ∧ ∃ W', Twins target W' (run limit m).2 (run limit n).2 := by
  rcases made : runFor (limit - m.steps).toNat m with ⟨e, m'⟩
  rcases made' : runFor (limit - n.steps).toNat n with ⟨e', n'⟩
  rw [memory_run made] at served
  rw [memory_run made'] at served'
  obtain ⟨rfl, W', after⟩ := runFor_twins twins made (twins.steps ▸ made') served served'
  by_cases terminated : e' = .terminated
  · subst terminated
    rw [run_of_terminated made, run_of_terminated made']
    exact ⟨rfl, W', { after.leave with terminated := rfl }⟩
  · rw [run_of_fault terminated made, run_of_fault terminated made']
    exact ⟨rfl, W', after.leave⟩

/-! ## The beginning -/

/-- Functions are placed in both machines, each at an address of its own. -/
theorem alike_placeFunctions {names : List String} (grounds : m.Grounds) (grounds' : n.Grounds)
    (twins : Twins target W m n) :
    Alike target Whatever W (placeFunctions names m) (placeFunctions names n) := by
  -- `Twins` alone does not say why a new address is distinct from the old ones, so `Grounds` is
  -- kept along.
  induction names generalizing W m n with
  | nil => exact .both (List.prefix_refl W) twins (.ok trivial)
  | cons name rest ih =>
      refine (Mirrors.allocate (List.prefix_refl W) twins).bind ?_
      intro W' p q m' n' _ placed placed' twins _
      obtain ⟨mem, journal, made, rfl⟩ := onStore_allocate_eq_ok placed
      obtain ⟨mem', journal', made', rfl⟩ := onStore_allocate_eq_ok placed'
      have grounds : Grounds { m.withMemory mem journal with functions := _ } :=
        grounds.insert made name
      have grounds' : Grounds { n.withMemory mem' journal' with functions := _ } :=
        grounds'.insert made' name
      exact ih grounds grounds' { twins with
        functions := twins.functions.insert trivial
        left := grounds.distinct
        right := grounds'.distinct }

end Machine

end AbstractMachine
