/-
# AbstractMachine.Proofs.Machine.Functions — functions keep their addresses to themselves

Before the first step every function gets a byte of memory, and what has got an address is not given
it twice. A table with distinct keys and distinct addresses can be read in both directions: the name
at an address is the name whose address it is.

No instruction frees the byte of a function, since locals are freed as stack memory and the program
frees heap memory; and what is allocated later lies apart from it. So it is live in every reachable
machine (`lasting_stationed`), and no other live allocation contains it. An allocation without bytes
may still lie at the same address: a call through a pointer to it is a call of the function.
-/
import AbstractMachine.Proofs.Machine.Brackets
import AbstractMachine.Proofs.Machine.Calls
import AbstractMachine.Proofs.Machine.Lasting
import AbstractMachine.Proofs.Memory.Freed
import AbstractMachine.Proofs.Noninterference.Execution

namespace AbstractMachine

/-! ## What no call frees -/

namespace Memory

variable {m : Memory} {k : Nat} {a : Allocation}

/-- A call that does not free memory of its kind leaves a live allocation alive. -/
theorem exists_live_after (numbered : m.Numbered) {c : Call} (found : m.allocations[k]? = some a)
    (live : a.live = true) (spared : ∀ p size align, c ≠ .deallocate p size align a.kind) :
    ∃ b, (m.after c).allocations[k]? = some b ∧ a.Continues b ∧ b.live = true := by
  obtain ⟨b, there, continues⟩ := exists_continues_after numbered c found
  refine ⟨b, there, continues, ?_⟩
  have old := (List.getElem?_eq_some_iff.1 found).1
  have same (unchanged : (m.after c).allocations[k]? = m.allocations[k]?) : b.live = true := by
    rw [unchanged, found] at there
    exact Option.some.inj there ▸ live
  cases c with
  | allocate size align kind =>
      rcases h : m.allocate size align kind with ⟨answer, m'⟩
      rw [after, h] at same
      cases answer with
      | error f =>
          obtain ⟨rfl, -⟩ | ⟨c, -, rfl, -⟩ := allocate_eq_error h
          · exact same rfl
          · exact same rfl
      | ok p =>
          obtain ⟨n, made⟩ := made_of_allocate h
          exact same (made.getElem?_of_lt old)
  | deallocate p size align kind =>
      cases h : m.deallocate p size align kind with
      | error f =>
          rw [after, h] at same
          exact same rfl
      | ok m' =>
          rw [after, h] at same
          obtain ⟨id, d, -, freed, -, rfl, -, rfl, rfl, rfl⟩ := deallocate_eq_ok_iff.1 h
          -- What was freed is of another kind, so it is another allocation.
          have other : id.index.toNat ≠ k := by
            intro number
            have at_ := (allocation_eq_ok_iff.1 freed).2
            rw [number, found] at at_
            obtain rfl := Option.some.inj at_
            exact spared p _ _ rfl
          apply same
          rw [orSame, allocations_modify, if_neg other]
  | store p data align =>
      cases h : m.store p data align with
      | error f =>
          rw [after, h] at same
          exact same rfl
      | ok m' =>
          rw [after, h] at there
          obtain ⟨d, found', outline⟩ := exists_of_outline_eq (outline_of_store numbered h) there
          obtain rfl := Option.some.inj (found.symm.trans found')
          obtain ⟨-, -, -, -, alive, -⟩ := Allocation.outline_eq_iff.1 outline
          exact alive.symm.trans live
  | load p size align => exact same rfl
  | dereferenceable p size align => exact same rfl
  | retag p ty => exact same rfl

end Memory

namespace Machine

variable {program : Program} {target : Target} {chooser : Chooser} {predictor : Predictor}
  {m m' n : Machine} {f name : String} {addr : Int} {table : Table String Int}

theorem Hosts.continues {a b : Allocation} (h : Hosts a addr) (continues : a.Continues b)
    (live : b.live = true) : Hosts b addr :=
  ⟨live, continues.kind.trans h.kind, continues.size.trans h.size, continues.addr.trans h.addr⟩

/-! ## What lasts of the functions -/

/-- The functions of a program are where a table says, and each has its byte there. -/
structure Stationed (program : Program) (table : Table String Int) (m : Machine) : Prop
    extends Grounds m where
  program : m.program = program
  table : m.functions = table

/-- Neither evaluation nor any call of memory by an instruction takes the byte of a function away. -/
theorem lasting_stationed (program : Program) (table : Table String Int) :
    Lasting (Stationed program table) where
  numbered h := h.laid.numbered
  evolved {m m'} h same := by
    have memory : m'.store.memory.outline = m.store.memory.outline :=
      show m'.outline.store.memory = m.outline.store.memory by rw [same]
    have functions : m'.functions = m.functions :=
      show m'.outline.functions = m.outline.functions by rw [same]
    have unchanged : m'.program = m.program :=
      show m'.outline.program = m.outline.program by rw [same]
    refine ⟨⟨h.laid.of_outline_eq memory, fun e he => ?_, functions ▸ h.distinct⟩,
      unchanged.trans h.program, functions.trans h.table⟩
    obtain ⟨a, ha, hosts⟩ := h.hosted e (functions ▸ he)
    obtain ⟨b, hb, outline⟩ := Memory.exists_mem_of_outline_eq memory.symm ha
    have outline := outline.symm
    refine ⟨b, hb, hosts.continues (.of_outline_eq outline) ?_⟩
    obtain ⟨-, -, -, -, alive, -⟩ := Allocation.outline_eq_iff.1 outline
    exact alive.symm.trans hosts.live
  called {m mem c} h called spared journal := by
    refine ⟨⟨called ▸ h.laid.after c, fun e he => ?_, h.distinct⟩, h.program, h.table⟩
    obtain ⟨a, ha, hosts⟩ := h.hosted e he
    obtain ⟨k, found⟩ := List.mem_iff_getElem?.1 ha
    have spared : ∀ p size align, c ≠ .deallocate p size align a.kind := by
      rintro p size align rfl
      exact spared hosts.kind
    obtain ⟨b, there, continues, live⟩ :=
      Memory.exists_live_after h.laid.numbered found hosts.live spared
    rw [called] at there
    exact ⟨b, List.mem_of_getElem? there, hosts.continues continues live⟩
  stack h _ := { h with }
  noted h _ := { h with }
  printed h line toStderr := by
    cases toStderr with
    | true => exact { h with }
    | false => exact { h with }

theorem Stationed.step (h : Stationed program table m) (run : step m = (.ok (), m')) :
    Stationed program table m' := by
  obtain ⟨f, name, block, executes⟩ := exists_executes run
  rw [step_of_executes executes] at run
  have begun : Stationed program table (m.begun f name) := { h with }
  exact (((lasting_stationed program table).instruction f block).ok begun run).1

/-! ## The beginning -/

/-- The names that got addresses are those that had one, and those that were to get one. -/
theorem names_of_placeFunctions {names : List String} (distinct : m.functions.keys.Nodup)
    (run : placeFunctions names m = (.ok (), m')) :
    m'.functions.keys.Nodup ∧ ∀ name, (∃ addr, m'.functions.find? name = some addr) ↔
      name ∈ names ∨ ∃ addr, m.functions.find? name = some addr := by
  induction names generalizing m with
  | nil =>
      obtain ⟨-, rfl⟩ := Action.pure_eq_ok_iff.1 run
      exact ⟨distinct, fun name => by simp⟩
  | cons first rest ih =>
      rw [placeFunctions] at run
      simp only [Action.bind_eq_ok_iff] at run
      obtain ⟨p, n, allocated, _, n', put, run⟩ := run
      obtain ⟨mem, journal, -, rfl⟩ := onStore_allocate_eq_ok allocated
      cases put
      have distinct : (m.functions.insert first p.addr).keys.Nodup := by
        cases known : m.functions.find? first with
        | none => exact Table.nodup_keys_insert distinct known
        | some b => exact Table.keys_insert_of_find? known ▸ distinct
      obtain ⟨distinct, names⟩ := ih distinct run
      refine ⟨distinct, fun name => (names name).trans ?_⟩
      show _ ∨ (∃ addr, (m.functions.insert first p.addr).find? name = some addr) ↔ _
      rw [Table.find?_insert, List.mem_cons]
      by_cases same : name = first
      · simp [same]
      · simp [same]

/-- What a machine is reached with. -/
theorem Reachable.stationed (h : Reachable program target chooser predictor m) :
    Stationed program m.functions m ∧ m.functions.keys.Nodup ∧
      ∀ name, (∃ addr, m.functions.find? name = some addr) ↔ name ∈ program.functions.keys := by
  obtain ⟨m₀, begun, steps⟩ := h
  suffices first : ∃ table, Stationed program table m₀ ∧ table.keys.Nodup ∧
      ∀ name, (∃ addr, table.find? name = some addr) ↔ name ∈ program.functions.keys by
    obtain ⟨table, stationed, names⟩ := first
    have last : Stationed program table m := by
      induction steps with
      | refl => exact stationed
      | tail _ run ih => exact ih.step run
    rw [last.table]
    exact ⟨last, names⟩
  unfold boot at begun
  rw [Action.apply_bind_of_ok (Action.apply_get _), Action.bind_eq_ok_iff] at begun
  obtain ⟨_, placed, run, begun⟩ := begun
  obtain ⟨grounds, same, -⟩ := grounds_of_placeFunctions grounds_fresh run
  have none : (fresh program target chooser predictor).functions.keys.Nodup := List.nodup_nil
  obtain ⟨distinct, names⟩ := names_of_placeFunctions none run
  have stationed : Stationed program placed.functions placed := ⟨grounds, same, rfl⟩
  have lasting := lasting_stationed program placed.functions
  have kept {x : Action Machine Unit} (lasts : Lasts (Stationed program placed.functions) x)
      (run : x placed = (.ok (), m₀)) : Stationed program placed.functions m₀ :=
    (lasts.ok stationed run).1
  refine ⟨placed.functions, kept ?_ begun, distinct, fun name => (names name).trans ?_⟩
  · exact .seq .ofExcept fun function => .seq (.newFrame _) fun f =>
      .seq (lasting.beginLocal f _) fun _ => lasting.push _
  · apply or_iff_left
    rintro ⟨addr, found⟩
    cases found

/-! ## Telling functions apart -/

/-- Every function of the program has a live byte at an address that leads back to its name and to no
other one, and no other live allocation has that byte. -/
structure ToldApart (m : Machine) : Prop where
  hosted : ∀ name ∈ m.program.functions.keys, ∃ addr, m.functions.find? name = some addr ∧
    ∃ a ∈ m.store.memory.allocations, Hosts a addr
  distinct : ∀ f g addr, m.functions.find? f = some addr → m.functions.find? g = some addr → f = g
  /-- Addresses are read back. -/
  inverse : ∀ name addr, m.functionAt? addr = some name ↔ m.functions.find? name = some addr
  outside : ∀ name addr, m.functions.find? name = some addr →
    ∀ a ∈ m.store.memory.allocations, a.live = true → a.kind ≠ .function →
      ¬(a.addr ≤ addr ∧ addr < a.stop)

/-- What is found at an address has it. -/
theorem find?_of_functionAt? (distinct : m.functions.keys.Nodup)
    (h : m.functionAt? addr = some name) : m.functions.find? name = some addr := by
  obtain ⟨e, found, rfl⟩ := Option.map_eq_some_iff.1 h
  have at_ : e.2 = addr := by simpa using List.find?_some found
  exact Table.find?_of_mem_entries distinct (at_ ▸ List.mem_of_find?_eq_some found)

/-- Two live allocations, one of which is the byte of a function, are one behind the other. -/
theorem Grounds.outside (h : m.Grounds) (found : m.functions.find? name = some addr)
    {a : Allocation} (ha : a ∈ m.store.memory.allocations) (live : a.live = true)
    (data : a.kind ≠ .function) : ¬(a.addr ≤ addr ∧ addr < a.stop) := by
  obtain ⟨b, hb, hosts⟩ := h.hosted _ (Table.mem_entries_of_find? found)
  obtain ⟨i, atI⟩ := List.mem_iff_getElem?.1 ha
  obtain ⟨j, atJ⟩ := List.mem_iff_getElem?.1 hb
  have other : i ≠ j := by
    rintro rfl
    obtain rfl := Option.some.inj (atI.symm.trans atJ)
    exact data hosts.kind
  have apart := h.laid.apart i j a b other atI atJ live hosts.live
  have stop : b.stop = b.addr + 1 := by rw [Allocation.stop, hosts.size]
  have at_ : b.addr = addr := hosts.addr
  rw [Allocation.Apart] at apart
  omega

theorem Reachable.toldApart (h : Reachable program target chooser predictor m) : m.ToldApart := by
  obtain ⟨stationed, nodup, names⟩ := h.stationed
  have inverse (name : String) (addr : Int) :
      m.functionAt? addr = some name ↔ m.functions.find? name = some addr :=
    ⟨find?_of_functionAt? nodup, functionAt?_of_find? stationed.distinct⟩
  refine ⟨fun name there => ?_, fun f g addr hf hg => ?_, inverse,
    fun name addr found a => stationed.outside found⟩
  · rw [stationed.program] at there
    obtain ⟨addr, found⟩ := (names name).2 there
    exact ⟨addr, found, stationed.hosted _ (Table.mem_entries_of_find? found)⟩
  · have atF := (inverse f addr).2 hf
    have atG := (inverse g addr).2 hg
    exact Option.some.inj (atF.symm.trans atG)

/-! ## Calls -/

/-- The next step of a machine is a call, and this is the machine in which the callee is evaluated. -/
def Calling (m : Machine) (callee : ValueExpr) (n : Machine) : Prop :=
  ∃ fr at_ block arguments result abi next convention, m.Executes fr at_ block ∧
    block.statements[fr.index]? = none ∧
    block.terminator = .call callee arguments result abi next convention ∧ n = m.begun fr at_

/-- A machine stands at the start of a function of a program. -/
def Enters (m : Machine) (program : Program) (name : String) : Prop :=
  ∃ g below, m.stack = g :: below ∧ g.name = name ∧
    program.functions.find? name = some g.function ∧ g.block = some g.function.start ∧ g.index = 0

variable {callee : ValueExpr} {arguments : List (ValueExpr × ArgAbi)} {result : PlaceExpr}
  {abi : ArgAbi} {next : Option String} {convention : CallingConvention} {p : Pointer} {ty : Ty}

theorem Calling.exists_execCall (h : m.Calling callee n) :
    ∃ arguments result abi next convention,
      step m = execCall callee arguments result abi next convention n := by
  obtain ⟨fr, at_, block, arguments, result, abi, next, convention, executes, last, call, rfl⟩ := h
  refine ⟨arguments, result, abi, next, convention, ?_⟩
  rw [step_of_executes executes, instruction, last, call]
  rfl

theorem Calling.stationed (h : m.Calling callee n) (stationed : Stationed program table m) :
    Stationed program table n := by
  obtain ⟨fr, at_, _, _, _, _, _, _, -, -, -, rfl⟩ := h
  exact { stationed with }

/-- A call goes where the callee points to, if there is a function. -/
theorem enters_of_execCall (stationed : Stationed program table m)
    (found : table.find? name = some p.addr) (evaluated : evalValue callee m = (.ok (.ptr p, ty), n))
    (run : execCall callee arguments result abi next convention m = (.ok (), m')) :
    m'.Enters program name := by
  obtain ⟨course⟩ := exists_course run
  obtain ⟨same, rfl⟩ := Prod.mk.inj (course.calls.symm.trans evaluated)
  have there : Stationed program table course.evaluated :=
    (((lasting_stationed program table).evalValue callee).ok stationed evaluated).1
  have named : course.evaluated.calledFunction (.ptr p) = .ok course.name := by
    have named := course.named
    rwa [Except.ok.inj same] at named
  have at_ : course.evaluated.functionAt? p.addr = some name :=
    functionAt?_of_find? there.distinct (by rw [there.table, found])
  rw [calledFunction, at_] at named
  obtain ⟨function, locals, known, entered⟩ := course.exists_entered_eq
  have same : name = course.name := Except.ok.inj named
  rw [there.program, ← same] at known
  refine ⟨course.entered, _, course.stack_after, ?_, ?_, ?_, ?_⟩
  · rw [entered, same]
  · rw [entered]
    exact known
  · rw [entered]
  · rw [entered]

/-- Where no function is, nothing can be called. -/
theorem execCall_of_functionAt?_eq_none (evaluated : evalValue callee m = (.ok (.ptr p, ty), n))
    (none : n.functionAt? p.addr = none) :
    execCall callee arguments result abi next convention m =
      (.error (.undefined .notAFunction), n) := by
  have asked : (Action.ask fun m => m.calledFunction (.ptr p)) n =
      (.error (.undefined .notAFunction), n) := by
    rw [Action.ask, calledFunction, none]
  rw [execCall, Action.apply_bind_of_ok evaluated]
  exact Action.apply_bind_of_error asked _

/-- In every reachable machine functions are told apart by their addresses: each has its live byte at
one of its own, addresses and names lead to each other, and no live memory of the stack or the heap
has such a byte. So a call of a function by its name enters that function or none, and a call through
a pointer into the bytes of live memory of the stack or the heap is always refused. -/
theorem toldApart_of_reachable (h : Reachable program target chooser predictor m) :
    m.ToldApart ∧
    (∀ name n m', m.Calling (.function name) n → step m = (.ok (), m') →
      m'.Enters program name) ∧
    (∀ callee n p ty n' a, m.Calling callee n → evalValue callee n = (.ok (.ptr p, ty), n') →
      a ∈ m.store.memory.allocations → a.live = true → a.kind ≠ .function →
      a.addr ≤ p.addr → p.addr < a.stop → step m = (.error (.undefined .notAFunction), n')) ∧
    Undefined.notAFunction.reason = "calling a pointer that does not point to a function" := by
  obtain ⟨stationed, distinct, -⟩ := h.stationed
  refine ⟨h.toldApart, ?_, ?_, rfl⟩
  · intro name n m' calling run
    have there := calling.stationed stationed
    obtain ⟨_, _, _, _, _, call⟩ := calling.exists_execCall
    rw [call] at run
    cases found : n.functions.find? name with
    | none =>
        rw [execCall, Action.apply_bind_of_error (evalValue_function_of_none found)] at run
        cases run
    | some addr =>
        have evaluated := evalValue_function_of_some found
        exact enters_of_execCall there (there.table ▸ found) evaluated run
  · intro callee n p ty n' a calling evaluated ha live data start stop
    have there := calling.stationed stationed
    have after : Stationed program m.functions n' :=
      (((lasting_stationed program m.functions).evalValue callee).ok there evaluated).1
    obtain ⟨_, _, _, _, _, call⟩ := calling.exists_execCall
    rw [call]
    apply execCall_of_functionAt?_eq_none evaluated
    cases at_ : n'.functionAt? p.addr with
    | none => rfl
    | some name =>
        -- The function whose byte that would be lies apart from the allocation.
        have found := find?_of_functionAt? (after.table.symm ▸ distinct) at_
        rw [after.table] at found
        exact absurd ⟨start, stop⟩ (stationed.outside found ha live data)

/-- A program that calls a local of its own. -/
def callingLocal : Program where
  functions := ⟨[("main", { oneLocalMain with
    blocks := ⟨[("start", ⟨[.live "x"], .call (.addrOf (.var "x") (.ptr .raw)) [] (.var "ret")
      { size := 0, align := 1 } none .rust⟩)]⟩ })]⟩

/-- A machine in which the function and the result of its call, which has no bytes, are at one
address. -/
def sharing : Machine :=
  (boot (fresh oneLocal ⟨8, .little⟩ (fun _ _ => .ok 1) .standard)).2

/-- The function that is called by its name is entered, the local is not called, and an allocation
without bytes is taken for the function at its address. -/
theorem toldApart_callOnce :
    ((afterSteps callOnce 0).ToldApart ∧ (afterSteps callOnce 1).Enters callOnce "idle") ∧
      (step (afterSteps callingLocal 1)).1 = .error (.undefined .notAFunction) ∧
      ∃ a ∈ sharing.store.memory.allocations, a.live = true ∧ a.kind = .stack ∧
        sharing.functionAt? a.addr = some "main" := by
  have begun : Reachable callOnce ⟨8, .little⟩ inTurn .standard (afterSteps callOnce 0) :=
    .begun rfl
  have call : step (afterSteps callOnce 0) = (.ok (), afterSteps callOnce 1) :=
    step_afterSteps (by decide +kernel)
  have calling : (afterSteps callOnce 0).Calling (.function "idle") _ :=
    ⟨callingFrame "start", "start", _, _, _, _, _, _, ⟨rfl, ⟨[], rfl⟩, rfl⟩, rfl, rfl, rfl⟩
  have living : Reachable callingLocal ⟨8, .little⟩ inTurn .standard (afterSteps callingLocal 1) :=
    .next (.begun rfl) rfl
  obtain ⟨n, local_, evaluated⟩ : ∃ n,
      (afterSteps callingLocal 1).Calling (.addrOf (.var "x") (.ptr .raw)) n ∧
      evalValue (.addrOf (.var "x") (.ptr .raw)) n = (.ok (.ptr ⟨3, some ⟨2⟩⟩, .ptr .raw), n) :=
    ⟨_, ⟨_, "start", _, _, _, _, _, _, ⟨rfl, ⟨[], rfl⟩, rfl⟩, rfl, rfl, rfl⟩, rfl⟩
  have shared : Reachable oneLocal ⟨8, .little⟩ (fun _ _ => .ok 1) .standard sharing := .begun rfl
  obtain ⟨apart, enters, -⟩ := toldApart_of_reachable begun
  obtain ⟨-, -, refused, -⟩ := toldApart_of_reachable living
  obtain ⟨atOne, -⟩ := toldApart_of_reachable shared
  refine ⟨⟨apart, enters _ _ _ calling call⟩, ?_, ?_⟩
  · have answer := refused _ _ ⟨3, some ⟨2⟩⟩ _ _ _ local_ evaluated
      (List.mem_of_getElem? (i := 2) rfl) rfl nofun (by decide) (by decide)
    rw [answer]
  · exact ⟨_, List.mem_of_getElem? (i := 1) rfl, rfl, rfl, (atOne.inverse "main" 1).2 rfl⟩

end Machine

end AbstractMachine
