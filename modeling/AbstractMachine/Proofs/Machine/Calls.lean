/-
# AbstractMachine.Proofs.Machine.Calls — the course of a call that succeeds

A call goes through several machines. The callee is evaluated in the first one; beside the stack, a
frame of the function is made and its result local begins to live; the place for the result is found
in the caller; the arguments are evaluated in the caller as well, and each of them is stored into a
parameter as soon as it is there. Only then are the two frames put on the stack.

A `Course` is a record of all this: whoever wants to know something of a call that succeeded looks
it up there.
-/
import AbstractMachine.Proofs.Machine.Stack

namespace AbstractMachine

namespace Machine

variable {m m' : Machine}

/-- What happens in a call that succeeds. -/
structure Course (callee : ValueExpr) (arguments : List (ValueExpr × ArgAbi)) (result : PlaceExpr)
    (next : Option String) (m m' : Machine) where
  /-- What the callee evaluates to. -/
  pointer : Value × Ty
  evaluated : Machine
  /-- The name of the function. -/
  name : String
  /-- The frame of the function in which nothing lives yet. -/
  fresh : Frame
  /-- The pointer to the memory of the result local. -/
  slot : Pointer
  /-- The frame of the function in which its result lives. -/
  readied : Frame
  begun : Machine
  /-- The place that waits for the result. -/
  awaiting : Pointer × PlaceTy
  found : Machine
  /-- The frame of the function with its parameters. -/
  entered : Frame
  passed : Machine
  caller : Frame
  below : List Frame
  calls : evalValue callee m = (.ok pointer, evaluated)
  named : evaluated.calledFunction pointer.1 = .ok name
  frames : newFrame name evaluated = (.ok fresh, evaluated)
  arity : fresh.function.params.length = arguments.length
  begins : beginLocal fresh fresh.function.result evaluated = (.ok (slot, readied), begun)
  finds : evalPlace result begun = (.ok awaiting, found)
  /-- The place is of the size of the result. -/
  fits : ∃ declared, fresh.localTy fresh.function.result = .ok declared ∧
    awaiting.2.byteSize found.target = declared.byteSize found.target
  passes : passArguments arguments readied.function.params
    { readied with result := some awaiting } found = (.ok entered, passed)
  stack : passed.stack = caller :: below
  after : ∃ journal, m' = { passed with
    stack := entered :: { caller with block := next, index := 0 } :: below
    store.journal := journal }

/-- Every call that succeeds has a course. -/
theorem exists_course {callee : ValueExpr} {arguments : List (ValueExpr × ArgAbi)}
    {result : PlaceExpr} {resultAbi : ArgAbi} {next : Option String}
    {convention : CallingConvention} {u : Unit}
    (run : execCall callee arguments result resultAbi next convention m = (.ok u, m')) :
    Nonempty (Course callee arguments result next m m') := by
  simp only [execCall, Action.bind_eq_ok_iff, Action.need_eq_ok_iff, Action.ofExcept_eq_iff,
    getTarget_bind] at run
  obtain ⟨pointer, _, calls, name, _, asked, fresh, _, frames, run⟩ := run
  obtain ⟨named, rfl⟩ := Prod.mk.inj asked
  obtain ⟨rfl, -⟩ := newFrame_eq_ok_iff.1 frames
  obtain ⟨_, _, ⟨-, rfl⟩, _, _, ⟨arity, rfl⟩, declared, evaluated, ⟨declares, rfl⟩, run⟩ := run
  obtain ⟨⟨slot, readied⟩, begun, begins, awaiting, _, finds, run⟩ := run
  obtain ⟨_, _, ⟨-, rfl⟩, _, found, ⟨size, rfl⟩, entered, passed, passes, run⟩ := run
  obtain ⟨caller, _, top, _, _, moved, _, _, pushed, noted⟩ := run
  obtain ⟨rfl, below, stack⟩ := frame_eq_ok_iff.1 top
  rw [modifyFrame_of_cons stack] at moved
  cases moved
  cases pushed
  cases noted
  exact ⟨{
    pointer, evaluated, name, fresh, slot, readied, begun, awaiting, found, entered, passed, caller
    below, calls, named, frames, begins, finds, passes, stack
    arity := beq_iff_eq.1 arity
    fits := ⟨declared, declares, beq_iff_eq.1 size⟩
    after := ⟨_, rfl⟩ }⟩

/-- Passing arguments makes locals live in a frame, and leaves the rest of it as it is. -/
theorem exists_locals_of_passArguments {arguments : List (ValueExpr × ArgAbi)}
    {params : List (String × ArgAbi)} {f g : Frame}
    (run : passArguments arguments params f m = (.ok g, m')) : ∃ locals, g = { f with locals } := by
  induction arguments generalizing params f m with
  | nil =>
      rw [passArguments_nil, Action.pure_eq_ok_iff] at run
      exact ⟨f.locals, run.1.symm⟩
  | cons a arguments ih =>
      cases params with
      | nil =>
          rw [passArguments_of_no_params, Action.pure_eq_ok_iff] at run
          exact ⟨f.locals, run.1.symm⟩
      | cons param params =>
          rw [passArguments] at run
          simp only [Action.bind_eq_ok_iff] at run
          obtain ⟨_, _, -, _, _, -, _, _, -, _, _, -, _, _, -, ⟨p, h⟩, _, begins, _, _, -, run⟩ := run
          obtain ⟨_, _, _, _, -, -, -, rfl, -⟩ := beginLocal_eq_ok begins
          obtain ⟨locals, rfl⟩ := ih run
          exact ⟨locals, rfl⟩

/-- The frame that is pushed by a call is that of the function, at its start. -/
theorem Course.exists_entered_eq {callee : ValueExpr} {arguments : List (ValueExpr × ArgAbi)}
    {result : PlaceExpr} {next : Option String} (c : Course callee arguments result next m m') :
    ∃ function locals, c.evaluated.program.functions.find? c.name = some function ∧
      c.entered = { name := c.name, function, locals, result := some c.awaiting,
                    block := some function.start } := by
  obtain ⟨-, function, found, fresh⟩ := newFrame_eq_ok_iff.1 c.frames
  obtain ⟨_, _, _, _, -, -, -, readied, -⟩ := beginLocal_eq_ok c.begins
  obtain ⟨locals, entered⟩ := exists_locals_of_passArguments c.passes
  refine ⟨function, locals, found, ?_⟩
  rw [entered, readied, fresh]

theorem Course.stack_after {callee : ValueExpr} {arguments : List (ValueExpr × ArgAbi)}
    {result : PlaceExpr} {next : Option String} (c : Course callee arguments result next m m') :
    m'.stack = c.entered :: { c.caller with block := next, index := 0 } :: c.below := by
  obtain ⟨journal, after⟩ := c.after
  exact congrArg Machine.stack after

end Machine

end AbstractMachine
