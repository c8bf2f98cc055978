/-
# AbstractMachine.Proofs.Machine.Brackets — calls and returns are bracketed

The frames of a stack are those of calls that have not returned. Every frame but the innermost one
waits for the call that it made: it stands at the start of the block that the call named, or at
none. Every frame but the outermost one has a place that waits for its result. This is what it means
that a stack is `Nested`, and every turn of a stack keeps it.

Between a call and the return that matches it there may be any number of steps, of calls and of
returns. As long as more frames are left than there were below the callee, those below are not
touched, and the step that comes down to them is a return of the callee and leaves exactly them.
-/
import AbstractMachine.Proofs.Machine.Stack

namespace AbstractMachine

/-- Two frames are of one activation: of the same function, with the same place that waits for the
result. -/
structure Frame.SameCall (f g : Frame) : Prop where
  name : g.name = f.name
  function : g.function = f.function
  result : g.result = f.result

theorem Frame.SameCall.refl (f : Frame) : f.SameCall f :=
  ⟨rfl, rfl, rfl⟩

theorem Frame.SameCall.trans {f g h : Frame} (first : f.SameCall g) (second : g.SameCall h) :
    f.SameCall h :=
  ⟨second.name.trans first.name, second.function.trans first.function,
    second.result.trans first.result⟩

theorem Frame.SameCall.localTy {f g : Frame} (h : f.SameCall g) {name : String} :
    g.localTy name = f.localTy name := by
  rw [Frame.localTy, Frame.localTy, h.function, h.name]

/-- The second frame is one of the same activation at a later time: its locals are those of the
first one, or have memory beyond the first so many allocations. -/
structure Frame.Later (n : Nat) (f g : Frame) : Prop extends f.SameCall g where
  fresher : Machine.Fresher n f.locals g.locals

theorem Frame.Later.of_locals_eq {n : Nat} {f g : Frame} (same : f.SameCall g)
    (locals : g.locals = f.locals) : f.Later n g :=
  ⟨same, fun _ _ found => .inl (locals ▸ found)⟩

theorem Frame.Later.refl (n : Nat) (f : Frame) : f.Later n f :=
  .of_locals_eq (.refl f) rfl

theorem Frame.Later.trans {n n' : Nat} {f g h : Frame} (first : f.Later n g) (le : n ≤ n')
    (second : g.Later n' h) : f.Later n h := by
  refine ⟨first.toSameCall.trans second.toSameCall, fun name p found => ?_⟩
  rcases second.fresher name p found with old | beyond
  · exact first.fresher name p old
  · exact .inr (beyond.mono le)

/-- A frame stands at a statement of its block or behind the last one, whenever it has a block. -/
def Frame.InBlock (f : Frame) : Prop :=
  ∀ name block, Machine.currentBlock f = .ok (name, block) → f.index ≤ block.statements.length

theorem Frame.inBlock_of_index_eq_zero {f : Frame} (h : f.index = 0) : f.InBlock := by
  intro name block _
  rw [h]
  exact Nat.zero_le _

namespace Machine

variable {n : Nat} {f g : Frame} {block : Block} {rest after beside base : List Frame}
  {m m' : Machine}
  {program : Program} {target : Target} {chooser : Chooser} {predictor : Predictor}

/-! ## Nesting -/

/-- A place waits for the result of every frame but the outermost one, and every frame but the
innermost one stands at a start. -/
inductive Nested : List Frame → Prop
  | outermost {f : Frame} (result : f.result = none) : Nested [f]
  | called {g f : Frame} {below : List Frame} (result : g.result.isSome = true)
      (waits : f.index = 0) (h : Nested (f :: below)) : Nested (g :: f :: below)

/-- Only the result of the innermost frame matters to a nesting. -/
theorem Nested.exchange (h : Nested (f :: rest)) (same : g.result = f.result) :
    Nested (g :: rest) := by
  cases h with
  | outermost none => exact .outermost (same.trans none)
  | called result waits below => exact .called (same ▸ result) waits below

theorem Nested.turn (h : Nested (f :: rest)) (turn : Turn n f block rest after) : Nested after := by
  cases turn with
  | statement _ _ => exact h.exchange rfl
  | jump _ _ => exact h.exchange rfl
  | call _ _ _ _ awaited => exact .called awaited rfl (h.exchange rfl)
  | ret _ _ beneath _ =>
      subst beneath
      cases h with
      | called _ _ below => exact below

/-- No place waits for the result of the outermost frame, and of that one only. -/
theorem Nested.result_eq_none_iff (h : Nested (beside ++ f :: rest)) :
    f.result = none ↔ rest = [] := by
  induction beside with
  | nil =>
      cases h with
      | outermost none => exact ⟨fun _ => rfl, fun _ => none⟩
      | called result _ _ =>
          constructor
          · intro none
            simp [none] at result
          · rintro ⟨⟩
  | cons g beside ih =>
      rw [List.cons_append] at h
      generalize beneath : beside ++ f :: rest = below at h
      cases h with
      | outermost _ => simp at beneath
      | called _ _ below =>
          rw [← beneath] at below
          exact ih below

theorem Nested.ne_nil (h : Nested after) : after ≠ [] := by
  cases h <;> exact List.cons_ne_nil _ _

/-- The innermost frame stays inside its block. -/
theorem Turn.inBlock {name : String} (turn : Turn n f block rest (g :: after))
    (nested : Nested (f :: rest)) (current : currentBlock f = .ok (name, block)) : g.InBlock := by
  cases turn with
  | @statement s locals next _ =>
      intro other block' current'
      -- Which block a frame stands in does not depend on its locals or its index.
      have same : currentBlock f = .ok (other, block') := current'
      obtain ⟨rfl, rfl⟩ := Prod.mk.inj (Except.ok.inj (current.symm.trans same))
      exact (List.getElem?_eq_some_iff.1 next).1
  | jump _ _ => exact Frame.inBlock_of_index_eq_zero rfl
  | call _ _ _ first _ => exact Frame.inBlock_of_index_eq_zero first
  | ret _ _ _ _ =>
      cases nested with
      | called _ waits _ => exact Frame.inBlock_of_index_eq_zero waits

/-- The stack of a reachable machine is nested, and its innermost frame stands in its block. -/
theorem Reachable.nested (h : Reachable program target chooser predictor m) :
    Nested m.stack ∧ ∀ f rest, m.stack = f :: rest → f.InBlock := by
  refine h.induction (P := fun stack => Nested stack ∧ ∀ f rest, stack = f :: rest → f.InBlock)
    (fun f none start => ⟨.outermost none, ?_⟩) ?_
  · rintro g rest split
    obtain ⟨rfl, -⟩ := List.cons.inj split
    exact Frame.inBlock_of_index_eq_zero start
  · rintro n f name block rest stack current turn ⟨nested, -⟩
    refine ⟨nested.turn turn, ?_⟩
    rintro g below rfl
    exact turn.inBlock nested current

/-! ## Runs above a depth -/

/-- A step that leaves more than so many frames. -/
structure StepsAbove (depth : Nat) (m m' : Machine) : Prop where
  run : step m = (.ok (), m')
  above : depth < m'.stack.length

/-- Any number of steps that leave more than so many frames. -/
def RunsAbove (depth : Nat) : Machine → Machine → Prop :=
  Relation.ReflTransGen (StepsAbove depth)

/-- A step that calls: the caller will go on at the start of a block, or nowhere. -/
structure Calls (m m' : Machine) (caller callee : Frame) (next : Option String)
    (below : List Frame) : Prop where
  run : step m = (.ok (), m')
  instruction : ∃ name block e arguments result resultAbi convention,
    m.Executes caller name block ∧ block.statements[caller.index]? = none ∧
      block.terminator = .call e arguments result resultAbi next convention
  before : m.stack = caller :: below
  after : m'.stack = callee :: { caller with block := next, index := 0 } :: below

/-- A step that returns from the innermost frame to those below it. -/
structure Returns (m m' : Machine) (f : Frame) (base : List Frame) : Prop where
  run : step m = (.ok (), m')
  instruction : ∃ name block, m.Executes f name block ∧ block.statements[f.index]? = none ∧
    block.terminator = .ret
  before : m.stack = f :: base
  after : m'.stack = base

/-- A turn that leaves more frames than those of a base leaves the base, and an activation on top of
it stays where it is. -/
theorem Turn.above (turn : Turn n f block rest after) (split : f :: rest = beside ++ g :: base)
    (deep : base.length < after.length) :
    ∃ beside' g', after = beside' ++ g' :: base ∧ g.Later n g' := by
  cases beside with
  | nil =>
      obtain ⟨rfl, rfl⟩ := List.cons.inj split
      cases turn with
      | @statement s locals _ fresher => exact ⟨[], _, rfl, ⟨rfl, rfl, rfl⟩, fresher⟩
      | jump _ _ => exact ⟨[], _, rfl, .of_locals_eq ⟨rfl, rfl, rfl⟩ rfl⟩
      | @call _ _ _ _ _ _ callee _ _ _ _ _ =>
          exact ⟨[callee], _, rfl, .of_locals_eq ⟨rfl, rfl, rfl⟩ rfl⟩
      | ret _ _ _ _ => exact absurd deep (Nat.lt_irrefl _)
  | cons f' beside =>
      obtain ⟨rfl, rfl⟩ := List.cons.inj split
      cases turn with
      | statement _ _ => exact ⟨_ :: beside, g, rfl, .refl n g⟩
      | jump _ _ => exact ⟨_ :: beside, g, rfl, .refl n g⟩
      | @call _ _ _ _ _ _ callee _ _ _ _ _ => exact ⟨callee :: _ :: beside, g, rfl, .refl n g⟩
      | ret _ _ _ _ => exact ⟨beside, g, rfl, .refl n g⟩

/-- A turn that leaves no more frames than those of a base is a return to it, and the frame that it
returns to has somewhere to go on. -/
theorem Turn.down (turn : Turn n f block rest after) (split : f :: rest = beside ++ g :: base)
    (down : after.length ≤ base.length) :
    f = g ∧ rest = base ∧ after = base ∧ block.statements[f.index]? = none ∧
      block.terminator = .ret ∧ ∃ caller below, base = caller :: below ∧
        caller.block.isSome = true := by
  have length := congrArg List.length split
  simp only [List.length_append, List.length_cons] at length
  cases turn with
  | statement _ _ => simp only [List.length_cons] at down; omega
  | jump _ _ => simp only [List.length_cons] at down; omega
  | call _ _ _ _ _ => simp only [List.length_cons] at down; omega
  | ret last terminator beneath goesOn =>
      have none : beside = [] := List.length_eq_zero_iff.1 (by omega)
      subst none
      obtain ⟨rfl, rfl⟩ := List.cons.inj split
      exact ⟨rfl, rfl, rfl, last, terminator, _, _, beneath, goesOn⟩

/-- A run above a base is a run. -/
theorem RunsAbove.reachable {n : Machine} {depth : Nat} (runs : RunsAbove depth m n)
    (h : Reachable program target chooser predictor m) :
    Reachable program target chooser predictor n := by
  obtain ⟨m₀, begun, steps⟩ := h
  exact ⟨m₀, begun, steps.trans (Relation.ReflTransGen.mono (fun _ _ step => step.run) _ _ runs)⟩

/-- As long as more frames are left than those of a base, the base is not touched, and the frame on
top of it is that of the same activation. -/
theorem RunsAbove.kept {n : Machine} (runs : RunsAbove base.length m n)
    (h : Reachable program target chooser predictor m) (split : m.stack = beside ++ g :: base) :
    m.allocated ≤ n.allocated ∧
      ∃ beside' g', n.stack = beside' ++ g' :: base ∧ g.Later m.allocated g' := by
  induction runs with
  | refl => exact ⟨Nat.le_refl _, beside, g, split, .refl _ g⟩
  | @tail n n' before next ih =>
      obtain ⟨grown, beside₁, g₁, split₁, later₁⟩ := ih
      have reached : Reachable program target chooser predictor n := RunsAbove.reachable before h
      obtain ⟨f, name, block, rest, -, stack, turn, stands⟩ := reached.turn next.run
      obtain ⟨beside₂, g₂, split₂, later₂⟩ := turn.above (stack.symm.trans split₁) next.above
      exact ⟨Nat.le_trans grown stands.grown, beside₂, g₂, split₂, later₁.trans grown later₂⟩

/-- The step that comes down to a base is a return of the activation on top of it. -/
theorem Reachable.returns (h : Reachable program target chooser predictor m)
    (split : m.stack = beside ++ g :: base) (run : step m = (.ok (), m'))
    (down : m'.stack.length ≤ base.length) : Returns m m' g base := by
  obtain ⟨f, name, block, rest, executes, stack, turn, -⟩ := h.turn run
  obtain ⟨rfl, rfl, after, last, terminator, -⟩ := turn.down (stack.symm.trans split) down
  exact ⟨run, ⟨name, block, executes, last, terminator⟩, stack, after⟩

/-- A return succeeds only if the frame below has a block to go on at. -/
theorem Reachable.goesOn (h : Reachable program target chooser predictor m)
    (returns : Returns m m' g (f :: base)) : f.block.isSome = true := by
  obtain ⟨g', name, block, rest, -, stack, turn, -⟩ := h.turn returns.run
  have split : g' :: rest = [] ++ g :: f :: base := stack.symm.trans returns.before
  have down : m'.stack.length ≤ (f :: base).length :=
    Nat.le_of_eq (congrArg List.length returns.after)
  obtain ⟨-, -, -, -, -, caller, below, same, goesOn⟩ := turn.down split down
  obtain ⟨rfl, -⟩ := List.cons.inj same
  exact goesOn

/-! ## Waiting -/

/-- A frame waits for a call that it made in an earlier step: it stands at the start of the block
that the call named, and since then it has been below others. -/
def Waits (program : Program) (target : Target) (chooser : Chooser) (predictor : Predictor)
    (m : Machine) (f : Frame) (below : List Frame) : Prop :=
  ∃ m₁ m₂ caller callee next, Reachable program target chooser predictor m₁ ∧
    Calls m₁ m₂ caller callee next below ∧ f = { caller with block := next, index := 0 } ∧
    RunsAbove (below.length + 1) m₂ m

/-- A frame goes on waiting as long as it is below others. -/
theorem Waits.tail (h : Waits program target chooser predictor m f rest)
    (step : StepsAbove (rest.length + 1) m m') :
    Waits program target chooser predictor m' f rest := by
  obtain ⟨m₁, m₂, caller, callee, next, first, calls, waits, runs⟩ := h
  exact ⟨m₁, m₂, caller, callee, next, first, calls, waits, runs.tail step⟩

/-- Every frame below others waits. -/
theorem Reachable.waits (h : Reachable program target chooser predictor m)
    (split : m.stack = beside ++ f :: rest) (covered : beside ≠ []) :
    Waits program target chooser predictor m f rest := by
  obtain ⟨m₀, begun, steps⟩ := h
  induction steps generalizing beside with
  | refl =>
      obtain ⟨_, stack, -⟩ := stands_of_boot begun
      have length := congrArg List.length (stack.symm.trans split)
      simp only [List.length_append, List.length_cons, List.length_nil] at length
      exact absurd (List.length_eq_zero_iff.1 (by omega)) covered
  | @tail m m' before run ih =>
      have reached : Reachable program target chooser predictor m := ⟨m₀, begun, before⟩
      obtain ⟨f', name, block, rest', executes, stack, turn, -⟩ := reached.turn run
      have high : rest.length + 1 < m'.stack.length := by
        have some := List.length_pos_iff.2 covered
        rw [split, List.length_append, List.length_cons]
        omega
      -- A frame that was below others before the step waited already.
      have waited (beside' : List Frame) (old : m.stack = f' :: beside' ++ f :: rest) :
          Waits program target chooser predictor m' f rest :=
        (ih old (List.cons_ne_nil _ _)).tail ⟨run, high⟩
      generalize after : m'.stack = stack' at turn
      rw [after] at split
      cases beside with
      | nil => exact absurd rfl covered
      | cons top beside =>
          cases turn with
          | statement _ _ =>
              obtain ⟨-, rfl⟩ := List.cons.inj split
              exact waited beside stack
          | jump _ _ =>
              obtain ⟨-, rfl⟩ := List.cons.inj split
              exact waited beside stack
          | ret _ _ _ _ =>
              subst split
              exact waited (top :: beside) stack
          | @call e arguments result resultAbi next convention g last terminator _ _ _ =>
              obtain ⟨rfl, tail⟩ := List.cons.inj split
              cases beside with
              | nil =>
                  obtain ⟨rfl, rfl⟩ := List.cons.inj tail
                  refine ⟨m, m', f', g, next, reached, ⟨run, ?_, stack, after⟩, rfl, .refl⟩
                  exact ⟨name, block, e, arguments, result, resultAbi, convention, executes, last,
                    terminator⟩
              | cons _ beside =>
                  obtain ⟨-, rfl⟩ := List.cons.inj tail
                  exact waited beside stack

/-! ## The discipline -/

/-- The stack of a reachable machine is disciplined: the innermost frame stands inside its block;
every other frame waits for a call that it made, at the start of the block that the call named; a
place waits for the result of every frame but the outermost one; whatever happens between a call and
the return that matches it, the frames below the callee stay as the call left them, and that return
leaves exactly them; and no step changes the depth by more than one. -/
theorem disciplined_of_reachable (h : Reachable program target chooser predictor m) :
    (∀ f rest name block, m.stack = f :: rest → currentBlock f = .ok (name, block) →
      f.index ≤ block.statements.length) ∧
    (∀ above f below, m.stack = above ++ f :: below → above ≠ [] →
      Waits program target chooser predictor m f below) ∧
    m.stack ≠ [] ∧
    (∀ above f below, m.stack = above ++ f :: below → (f.result = none ↔ below = [])) ∧
    (∀ m₁ m₂ caller callee next below, Calls m m₁ caller callee next below →
      RunsAbove (below.length + 1) m₁ m₂ →
      (∃ above g, callee.SameCall g ∧
        m₂.stack = above ++ g :: { caller with block := next, index := 0 } :: below) ∧
      ∀ m₃, step m₂ = (.ok (), m₃) → m₃.stack.length ≤ below.length + 1 →
        ∃ g, callee.SameCall g ∧
          Returns m₂ m₃ g ({ caller with block := next, index := 0 } :: below)) ∧
    (∀ answer m', step m = (answer, m') →
      m'.stack.length ≤ m.stack.length + 1 ∧ m.stack.length ≤ m'.stack.length + 1) := by
  obtain ⟨nested, inBlock⟩ := h.nested
  refine ⟨fun f rest name block split => inBlock f rest split name block,
    fun above f below split covered => h.waits split covered, nested.ne_nil, ?_, ?_, ?_⟩
  · intro above f below split
    rw [split] at nested
    exact nested.result_eq_none_iff
  · intro m₁ m₂ caller callee next below calls runs
    have called : Reachable program target chooser predictor m₁ := h.tail calls.run
    have after : m₁.stack = [] ++ callee :: { caller with block := next, index := 0 } :: below :=
      calls.after
    have runs : RunsAbove ({ caller with block := next, index := 0 } :: below).length m₁ m₂ := runs
    obtain ⟨-, above, g, split, later⟩ := RunsAbove.kept runs called after
    refine ⟨⟨above, g, later.toSameCall, split⟩, fun m₃ run down => ⟨g, later.toSameCall, ?_⟩⟩
    exact (runs.reachable called).returns split run down
  · intro answer m' run
    have near := near_of_step h.numbered run
    exact ⟨near.notAbove, near.notBelow⟩

/-- A function that returns at once. -/
def idleFunction : Function where
  locals := ⟨[("ret", ⟨.tuple [] 0, 1⟩)]⟩
  params := []
  result := "ret"
  resultAbi := { size := 0, align := 1 }
  start := "start"
  blocks := ⟨[("start", ⟨[], .ret⟩)]⟩

/-- A function that calls another one, and returns when that has returned. -/
def callingFunction : Function where
  locals := ⟨[("ret", ⟨.tuple [] 0, 1⟩)]⟩
  params := []
  result := "ret"
  resultAbi := { size := 0, align := 1 }
  start := "start"
  blocks := ⟨[("start", ⟨[], .call (.function "idle") [] (.var "ret") { size := 0, align := 1 }
    (some "done") .rust⟩), ("done", ⟨[], .ret⟩)]⟩

/-- A program of one call. -/
def callOnce : Program where
  functions := ⟨[("main", callingFunction), ("idle", idleFunction)]⟩

/-- The frame that calls, at one of its blocks. -/
def callingFrame (block : String) : Frame where
  name := "main"
  function := callingFunction
  block := some block
  locals := ⟨[("ret", ⟨3, some ⟨2⟩⟩)]⟩

/-- The frame that is called. -/
def idleFrame : Frame where
  name := "idle"
  function := idleFunction
  block := some "start"
  locals := ⟨[("ret", ⟨4, some ⟨3⟩⟩)]⟩
  result := some (⟨3, some ⟨2⟩⟩, ⟨.tuple [] 0, 1⟩)

/-- While the callee runs the caller waits at its next block, and the return leads back to it. -/
theorem disciplined_callOnce :
    Waits callOnce ⟨8, .little⟩ inTurn .standard (afterSteps callOnce 1) (callingFrame "done") [] ∧
      ∃ g, Returns (afterSteps callOnce 1) (afterSteps callOnce 2) g [callingFrame "done"] := by
  have begun : Reachable callOnce ⟨8, .little⟩ inTurn .standard (afterSteps callOnce 0) :=
    .begun rfl
  have calls : step (afterSteps callOnce 0) = (.ok (), afterSteps callOnce 1) :=
    step_afterSteps (by decide +kernel)
  have returns : step (afterSteps callOnce 1) = (.ok (), afterSteps callOnce 2) :=
    step_afterSteps (by decide +kernel)
  have before : (afterSteps callOnce 0).stack = [callingFrame "start"] := rfl
  have during : (afterSteps callOnce 1).stack = [idleFrame, callingFrame "done"] := rfl
  have after : (afterSteps callOnce 2).stack.length ≤ 1 := by decide +kernel
  have executes : (afterSteps callOnce 0).Executes (callingFrame "start") "start" _ :=
    ⟨rfl, ⟨[], before⟩, rfl⟩
  have called : Calls (afterSteps callOnce 0) (afterSteps callOnce 1) (callingFrame "start")
      idleFrame (some "done") [] :=
    ⟨calls, ⟨_, _, _, _, _, _, _, executes, rfl, rfl⟩, before, during⟩
  obtain ⟨-, waits, -⟩ := disciplined_of_reachable (begun.tail calls)
  obtain ⟨-, -, -, -, brackets, -⟩ := disciplined_of_reachable begun
  refine ⟨waits [idleFrame] (callingFrame "done") [] during (List.cons_ne_nil _ _), ?_⟩
  obtain ⟨-, matching⟩ := brackets _ _ _ _ _ _ called .refl
  obtain ⟨g, -, returned⟩ := matching (afterSteps callOnce 2) returns after
  exact ⟨g, returned⟩

end Machine

end AbstractMachine
