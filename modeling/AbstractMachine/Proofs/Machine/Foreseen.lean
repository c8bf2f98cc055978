/-
# AbstractMachine.Proofs.Machine.Foreseen — what a step of a workable machine can fail with

A step of a workable machine leaves it workable, and it fails in foreseen ways, with two exceptions.
One is the end of the program, with which every run that succeeds ends. The other is a number that
has too many digits to be printed; arithmetic at a wide type comes by such numbers, and nothing
keeps a program from printing them. No division by zero, no shift by a negative amount, no position
outside a list is among the faults. That a return finds no frame to return from is ruled out where
steps are made, since there a frame was found.

Runs follow by induction on their steps.
-/
import AbstractMachine.Proofs.Machine.Workable

namespace AbstractMachine

/-- What a step of a workable machine can fail with. -/
def Fault.OfStep (f : Fault) : Prop :=
  f.Foreseen ∨ f = .terminated ∨ f = .arithmetic .tooManyDigits

instance : Fault.Blaming Fault.OfStep where
  undefined _ := .inl trivial
  defect _ _ := .inl trivial

namespace Machine

variable {m m' : Machine} {α β : Type} {place : PlaceTy}

theorem Works.ofStep {x : Action Machine α} {V : α → Prop} (h : Works Fault.Foreseen x V) :
    Works Fault.OfStep x V :=
  h.mono fun _ => .inl

/-! ## Locals and jumps -/

theorem works_beginLocal {f : Frame} (h : f.Workable) (name : String) :
    Works Fault.Foreseen (beginLocal f name) fun a => a.2.Workable := by
  refine .seq (.need trivial) fun _ => .bind (works_ofExcept_localTy h name) fun place _ => ?_
  exact .bind .getTarget fun _ _ => .seq (works_allocate _ _ _) fun _ => .answer ⟨h.function, h.result⟩

theorem works_freeLocal {f : Frame} (h : f.Workable) (name : String) (p : Pointer) :
    Works Fault.Foreseen (freeLocal f name p) :=
  .bind (works_ofExcept_localTy h name) fun _ _ => .bind .getTarget fun _ _ =>
    works_deallocate p _ _ _

theorem works_freeLocals {f : Frame} (h : f.Workable) (entries : List (String × Pointer)) :
    Works Fault.Foreseen (freeLocals f entries) := by
  induction entries with
  | nil => exact .nothing
  | cons e rest ih => exact .seq (works_freeLocal h e.1 e.2) fun _ => ih

theorem works_storageLive (name : String) : Works Fault.Foreseen (storageLive name) :=
  .bind (.frame fun _ => trivial) fun _ hf => .bind (works_beginLocal hf name) fun _ hg =>
    .modifyFrame fun _ _ => hg

theorem works_storageDead (name : String) : Works Fault.Foreseen (storageDead name) := by
  refine .bind (.frame fun _ => trivial) fun f hf => ?_
  cases f.locals.find? name with
  | none => exact .throw trivial
  | some p =>
      exact .seq (.modifyFrame fun _ hg => ⟨hg.function, hg.result⟩) fun _ => works_freeLocal hf name p

theorem works_jump (block : String) : Works Fault.Foreseen (jump block) :=
  .bind (.frame fun _ => trivial) fun _ _ => .seq (.need trivial) fun _ =>
    .modifyFrame fun _ hf => ⟨hf.function, hf.result⟩

/-! ## Statements -/

theorem works_storeTag (p : Pointer) {align : Int} (aligned : 1 ≤ align) {writes : List TagWrite}
    (sized : ∀ w ∈ writes, 1 ≤ w.ty.size) : Works Fault.Foreseen (storeTag p align writes) := by
  induction writes with
  | nil => exact .nothing
  | cons w rest ih =>
      obtain ⟨first, rest⟩ := List.forall_mem_cons.1 sized
      have tag : PlaceTy.Workable { ty := .int w.ty, align := restrictAlign align w.offset } :=
        ⟨one_le_restrictAlign aligned w.offset, Ty.all_workable_int first⟩
      exact .seq (works_offsetInBounds p _) fun q => .seq (works_typedStore q _ tag) fun _ => ih rest

theorem works_execute (s : Statement) (h : s.Workable) : Works Fault.Foreseen (execute s) := by
  cases s with
  | assign destination source =>
      exact .bind (works_evalValue source h.2) fun v _ =>
        .bind (works_evalPlace destination h.1) fun a workable => works_typedStore a.1 v.1 workable
  | finalize place =>
      exact .bind (works_evalPlace place h) fun a workable =>
        .seq (works_typedLoad a.1 workable) fun _ => .nothing
  | live name => exact works_storageLive name
  | dead name => exact works_storageDead name
  | setDiscriminant place d =>
      refine .bind (works_evalPlace place h) ?_
      rintro ⟨p, ⟨ty, align⟩⟩ workable
      cases ty with
      | enum e =>
          refine .bind (.ofExcept (failsIn_elementAt e.variants d trivial)) fun var found => ?_
          obtain ⟨n, -, at_⟩ := elementAt_eq_ok_iff.1 found
          exact works_storeTag p workable.aligned
            (workable.ty.here.tags_sized var (List.mem_of_getElem? at_))
      | _ => exact .throw trivial
  | deinit place =>
      exact .bind (works_evalPlace place h) fun a workable => works_deinit a.1 workable
  | validate place =>
      refine .bind (works_evalPlace place h) fun a workable => ?_
      refine .seq (works_typedLoad a.1 workable) fun v => ?_
      refine .seq (.ask fun _ _ => Memory.foreseen_retagValue workable.ty.every v) fun w => ?_
      exact works_typedStore a.1 w workable
  | mention place => exact .bind (works_evalPlace place h) fun _ _ => .nothing

/-! ## Intrinsics -/

theorem works_printAll (toStderr : Bool) (arguments : List (Value × Ty)) :
    Works Fault.OfStep (printAll toStderr arguments) := by
  induction arguments with
  | nil => exact .nothing
  | cons a rest ih =>
      -- of the faults that are not foreseen only the digits of a number are met here
      refine .bind (.ofExcept (.printed (.inr (.inr rfl)) a)) fun line _ => ?_
      exact .seq (.print _ _) fun _ => ih

theorem works_performIntrinsic (op : IntrinsicOp) (arguments : List (Value × Ty)) :
    Works Fault.OfStep (performIntrinsic op arguments) := by
  have number (a : Value × Ty) : Works Fault.OfStep (Action.ofExcept (intArgument a)) fun n =>
      intArgument a = .ok n := Works.ofStep (.ofExcept (failsIn_intArgument a))
  have pointer (a : Value × Ty) : Works Fault.OfStep (Action.ofExcept (ptrArgument a)) fun p =>
      ptrArgument a = .ok p := Works.ofStep (.ofExcept (failsIn_ptrArgument a))
  unfold performIntrinsic
  split
  · -- to print, to either stream
    exact .seq (works_printAll _ _) fun _ => .nothing
  · exact .seq (works_printAll _ _) fun _ => .nothing
  · -- to exit, which is no finding, and to panic, which is
    exact .throw (.inr (.inl rfl))
  · exact .throw (.inl trivial)
  · -- to allocate and to free
    exact .bind (number _) fun _ _ => .bind (number _) fun _ _ =>
      .seq (works_allocate _ _ _).ofStep fun _ => .nothing
  · exact .bind (pointer _) fun _ _ => .bind (number _) fun _ _ => .bind (number _) fun _ _ =>
      .seq (works_deallocate _ _ _ _).ofStep fun _ => .nothing
  · -- to expose a pointer, and to recover one
    exact .bind (pointer _) fun _ _ => .seq (works_expose _).ofStep fun _ =>
      .bind .getTarget fun _ _ => .nothing
  · refine .bind (number _) fun n _ => .bind .getTarget fun target width => ?_
    refine .bind (.ofExcept (target.failsIn_addrInBounds width n)) fun _ _ => ?_
    exact .seq (.need (.inl trivial)) fun _ => .seq (works_fromAddr n).ofStep fun _ => .nothing
  · -- to assume something, and anything else
    exact .seq (.need (.inl trivial)) fun _ => .nothing
  · exact .throw (.inl trivial)

/-- A place that waits for a result is workable. -/
def WorkableResult (r : Option (Pointer × PlaceTy)) : Prop := ∀ a ∈ r, a.2.Workable

theorem works_evalResult {result : Option PlaceExpr} (h : ∀ e ∈ result, e.Workable) :
    Works Fault.Foreseen (evalResult result) WorkableResult := by
  cases result with
  | none => exact .answer nofun
  | some e =>
      refine .bind (works_evalPlace e (h e rfl)) fun a workable => .answer ?_
      rintro _ ⟨⟩
      exact workable

theorem works_storeResult (v : Value) (ty : Ty) {r : Option (Pointer × PlaceTy)}
    (h : WorkableResult r) : Works Fault.Foreseen (storeResult v ty r) := by
  cases r with
  | none => exact .nothing
  | some a => exact .seq (.need trivial) fun _ => works_typedStore a.1 v (h a rfl)

theorem works_execIntrinsic (op : IntrinsicOp) {arguments : List ValueExpr}
    {result : Option PlaceExpr} (next : Option String) (ha : ∀ e ∈ arguments, e.Workable)
    (hr : ∀ e ∈ result, e.Workable) :
    Works Fault.OfStep (execIntrinsic op arguments result next) := by
  refine .seq (works_evalAll arguments (ValueExpr.allWorkable_iff.2 ha)).ofStep fun vs => ?_
  refine .bind (works_evalResult hr).ofStep fun r workable => ?_
  refine .seq (works_performIntrinsic op vs) fun a => ?_
  refine .seq (works_storeResult a.1 a.2 workable).ofStep fun _ => ?_
  cases next with
  | none => exact .throw (.inl trivial)
  | some block => exact (works_jump block).ofStep

/-! ## Calls and returns -/

theorem works_passArguments : ∀ (arguments : List (ValueExpr × ArgAbi))
    (params : List (String × ArgAbi)) {callee : Frame}, (∀ a ∈ arguments, a.1.Workable) →
    callee.Workable → Works Fault.Foreseen (passArguments arguments params callee) Frame.Workable
  | (e, given) :: arguments, (name, expected) :: params, callee, ha, hc => by
      obtain ⟨first, rest⟩ := List.forall_mem_cons.1 ha
      rw [passArguments]
      refine .bind (works_evalValue e first) fun a workable => .seq (.need trivial) fun _ => ?_
      refine .bind (works_ofExcept_localTy hc name) fun place declared => ?_
      refine .bind .getTarget fun target _ => .seq (.need trivial) fun _ => ?_
      refine .bind (works_beginLocal hc name) fun b hb => ?_
      -- the argument is stored at the caller's type, and at the callee's alignment
      refine .seq (works_typedStore b.1 a.1 ⟨declared.aligned, workable⟩) fun _ => ?_
      exact works_passArguments arguments params rest hb
  | [], params, callee, _, hc => by
      rw [passArguments_nil]
      exact .answer hc
  | a :: arguments, [], callee, _, hc => by
      rw [passArguments_of_no_params]
      exact .answer hc

theorem works_newFrame (name : String) :
    Works Fault.Foreseen (newFrame name) Frame.Workable where
  ok {m m' f} hm run := by
    obtain ⟨rfl, function, found, rfl⟩ := newFrame_eq_ok_iff.1 run
    exact ⟨hm, hm.program _ (Table.mem_entries_of_find? found), nofun⟩
  error {m m' e} hm run := by
    obtain ⟨rfl, -, rfl⟩ := newFrame_eq_error run
    exact ⟨hm, trivial⟩

theorem works_execCall {callee : ValueExpr} {arguments : List (ValueExpr × ArgAbi)}
    {result : PlaceExpr} (resultAbi : ArgAbi) (next : Option String)
    (convention : CallingConvention) (hc : callee.Workable) (ha : ∀ a ∈ arguments, a.1.Workable)
    (hr : result.Workable) :
    Works Fault.Foreseen (execCall callee arguments result resultAbi next convention) := by
  refine .bind (works_evalValue callee hc) fun a _ => ?_
  refine .seq (Action.Keeps.ask (fun _ _ _ _ => trivial)
    fun m _ => m.failsIn_calledFunction a.1) fun name => ?_
  refine .bind (works_newFrame name) fun f hf => ?_
  refine .seq (.need trivial) fun _ => .seq (.need trivial) fun _ => ?_
  refine .bind (works_ofExcept_localTy hf _) fun _ _ => .bind (works_beginLocal hf _) fun b hb => ?_
  refine .bind (works_evalPlace result hr) fun r workable => .seq (.need trivial) fun _ => ?_
  refine .bind .getTarget fun _ _ => .seq (.need trivial) fun _ => ?_
  have waiting : Frame.Workable { b.2 with result := some (r.1, r.2) } := by
    refine ⟨hb.function, ?_⟩
    rintro _ ⟨⟩
    exact workable
  refine .bind (works_passArguments arguments _ ha waiting) fun g hg => ?_
  refine .bind (.frame fun _ => trivial) fun caller _ => ?_
  refine .seq (.modifyFrame fun _ hf => ⟨hf.function, hf.result⟩) fun _ => ?_
  exact .seq (.push hg) fun _ => .note _

/-- A result is stored at the type that it was declared with, and at the alignment of the place that
waits for it. -/
theorem works_deliver (v : Value) {ty : Ty} {r : Option (Pointer × PlaceTy)}
    (hty : ty.All Ty.Workable) (hr : WorkableResult r) : Works Fault.Foreseen (deliver v ty r) := by
  cases r with
  | none => exact .nothing
  | some a => exact works_typedStore a.1 v ⟨(hr a rfl).aligned, hty⟩

theorem works_resume : Works Fault.OfStep resume := by
  refine .bind Action.Keeps.get fun m _ => ?_
  cases m.stack with
  | nil => exact .throw (.inr (.inl rfl))
  | cons caller rest => exact .need (.inl trivial)

/-- Begun on a workable machine that has a frame, an action leaves it workable, whether it fails or
not, and fails as a step may. -/
def Runs (x : Action Machine α) : Prop :=
  Action.Meets (fun m => m.Workable ∧ m.stack ≠ []) x (fun _ m => m.Workable)
    fun f m => m.Workable ∧ f.OfStep

theorem Works.meets {x : Action Machine α} {V : α → Prop} (h : Works Fault.OfStep x V) :
    Action.Meets Workable x (fun _ m => m.Workable) fun f m => m.Workable ∧ f.OfStep :=
  h.consequence (fun _ hm => hm) (fun _ _ hm => hm.1) fun _ _ hm => hm

theorem Works.runs {x : Action Machine α} (h : Works Fault.OfStep x) : Runs x :=
  h.meets.consequence (fun _ hm => hm.1) (fun _ _ hm => hm) fun _ _ hm => hm

/-- A return finds the frame that it returns from. -/
theorem runs_execReturn : Runs execReturn := by
  have popped : Action.Meets (fun m => m.Workable ∧ m.stack ≠ []) popFrame
      (fun f m => m.Workable ∧ f.Workable) fun f m => m.Workable ∧ f.OfStep := by
    constructor
    · intro m m' f hm run
      obtain ⟨stack, same⟩ := popFrame_eq_ok_iff.1 run
      rw [same]
      refine ⟨hm.1.withStack fun g hg => hm.1.stack g ?_, hm.1.stack f ?_⟩
      · exact stack ▸ List.mem_cons_of_mem _ hg
      · exact stack ▸ List.mem_cons_self
    · intro m m' f hm run
      obtain ⟨-, empty, -⟩ := popFrame_eq_error run
      exact absurd empty hm.2
  refine popped.bind fun f => .assume fun hf => ?_
  refine Works.meets (V := fun _ => True) ?_
  cases f.locals.find? f.function.result with
  | none => exact .throw (.inl trivial)
  | some p =>
      refine .bind (works_ofExcept_localTy hf _).ofStep fun place workable => ?_
      refine .seq (works_typedLoad p workable).ofStep fun v => ?_
      refine .seq (works_deliver v workable.ty hf.result).ofStep fun _ => ?_
      exact .seq (works_freeLocals hf _).ofStep fun _ => .seq (.note _) fun _ => works_resume

/-! ## Steps -/

theorem runs_finish (t : Terminator) (h : t.Workable) : Runs (finish t) := by
  cases t with
  | goto block => exact (works_jump block).ofStep.runs
  | ite condition onTrue onFalse =>
      refine Works.runs (.bind (works_evalValue condition h).ofStep ?_)
      rintro ⟨v, _⟩ _
      cases v with
      | bool b => exact (works_jump _).ofStep
      | _ => exact .throw (.inl trivial)
  | switch value cases fallback =>
      refine Works.runs (.bind (works_evalValue value h).ofStep ?_)
      rintro ⟨v, _⟩ _
      cases v with
      | int n => exact (works_jump _).ofStep
      | _ => exact .throw (.inl trivial)
  | unreachable => exact Works.runs (.throw (.inl trivial))
  | call callee arguments result resultAbi next convention =>
      exact (works_execCall resultAbi next convention h.1 h.2.1 h.2.2).ofStep.runs
  | ret => exact runs_execReturn
  | intrinsic op arguments result next => exact (works_execIntrinsic op next h.1 h.2).runs

theorem runs_instruction {f : Frame} {block : Block} (h : block.Workable) :
    Runs (instruction f block) := by
  unfold instruction
  cases at_ : block.statements[f.index]? with
  | none => exact runs_finish _ h.terminator
  | some s =>
      have statement := works_execute s (h.statements s (List.mem_of_getElem? at_))
      refine Works.runs (.seq statement.ofStep fun _ => ?_)
      exact .modifyFrame fun _ hf => ⟨hf.function, hf.result⟩

/-- A step leaves a workable machine workable, whether it fails or not. -/
theorem Workable.step {answer : Except Fault Unit} (h : m.Workable)
    (run : Machine.step m = (answer, m')) : m'.Workable ∧ FailsIn Fault.OfStep answer := by
  by_cases executes : ∃ f name block, m.Executes f name block
  · obtain ⟨f, name, block, executes⟩ := executes
    obtain ⟨rest, stack⟩ := executes.top
    rw [step_of_executes executes] at run
    have workable : block.Workable :=
      (h.stack f (stack ▸ List.mem_cons_self)).function.blocks _
        (mem_blocks_of_currentBlock executes.current)
    have begun : (m.begun f name).Workable ∧ (m.begun f name).stack ≠ [] := by
      refine ⟨{ h with }, ?_⟩
      show m.stack ≠ []
      rw [stack]
      exact List.cons_ne_nil _ _
    cases answer with
    | ok u => exact ⟨(runs_instruction workable).ok begun run, .ok u⟩
    | error f =>
        obtain ⟨left, fault⟩ := (runs_instruction workable).error begun run
        exact ⟨left, .error fault⟩
  · -- without a block to execute the step fails before it does anything
    obtain ⟨d, failed⟩ := step_eq_defect_of_not_executes fun f name block at_ =>
      executes ⟨f, name, block, at_⟩
    obtain ⟨rfl, rfl⟩ := Prod.mk.inj (failed.symm.trans run)
    exact ⟨h, .error (.inl trivial)⟩

/-- A run of a workable machine ends as a step may. -/
theorem Workable.runFor (h : m.Workable) (n : Nat) : (Machine.runFor n m).1.OfStep := by
  induction n generalizing m with
  | zero => exact .inl trivial -- the step limit is an answer
  | succ n ih =>
      rcases made : Machine.step m with ⟨f | u, m'⟩
      · rw [runFor_of_step_error made]
        exact (h.step made).2 f rfl
      · rw [runFor_of_step_ok made]
        exact ih (h.step made).1

/-- The end of the program is no fault of a run. -/
theorem Workable.run {f : Fault} {limit : Int} (h : m.Workable)
    (run : Machine.run limit m = (.error f, m')) :
    f.Foreseen ∨ f = .arithmetic .tooManyDigits := by
  have ended := h.runFor (limit - m.steps).toNat
  rcases made : Machine.runFor (limit - m.steps).toNat m with ⟨e, k⟩
  rw [made] at ended
  by_cases last : e = .terminated
  · -- then the run has succeeded
    subst last
    obtain ⟨⟨⟩, -⟩ := Prod.mk.inj ((run_of_terminated made).symm.trans run)
  · obtain ⟨same, -⟩ := Prod.mk.inj ((run_of_fault last made).symm.trans run)
    obtain rfl := Except.error.inj same
    obtain foreseen | terminated | digits := ended
    · exact .inl foreseen
    · exact absurd terminated last
    · exact .inr digits

/-! ## The beginning -/

theorem workable_fresh {program : Program} {target : Target} {chooser : Chooser}
    {predictor : Predictor} (width : 1 ≤ target.ptrSize) (hp : program.Workable)
    (hc : chooser.Foreseeable) (hq : predictor.Foreseeable) :
    (fresh program target chooser predictor).Workable where
  width := width
  chooser := hc
  predictor := hq
  program := hp
  stack := List.forall_mem_nil _

theorem works_placeFunctions (names : List String) :
    Works Fault.Foreseen (placeFunctions names) := by
  induction names with
  | nil => exact .nothing
  | cons name rest ih =>
      exact .seq (works_allocate _ _ _) fun p =>
        .seq (.alter fun _ hm => { hm with }) fun _ => ih

/-- Before its first step a program cannot come to its end. -/
theorem works_boot : Works Fault.Foreseen boot := by
  refine .bind Action.Keeps.get fun m _ => .seq (works_placeFunctions _) fun _ => ?_
  refine .bind (.ofExcept (failsIn_startFunction _)) fun function _ => ?_
  refine .bind (works_newFrame _) fun f hf => .bind (works_beginLocal hf _) fun b hb => ?_
  exact .push hb

end Machine

end AbstractMachine
