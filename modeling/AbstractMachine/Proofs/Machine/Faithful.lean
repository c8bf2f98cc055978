/-
# AbstractMachine.Proofs.Machine.Faithful — calls hand on what they are given

A call that succeeds leaves the callee with its result local and its parameters, each of them in new
memory: that of the result is uninitialised, and that of a parameter holds the value of its argument
(`Enters`). The return that matches it may come after any number of steps and of other calls. If it
succeeds the result is found in the place that was waiting for it, the locals of the callee are gone,
and nothing else has changed (`Leaves`).

Two things are behind this. The names that a machine holds when it calls are those of older memory, so
neither an argument nor the place for the result can be found in the memory of the callee; and a local
that begins to live has memory that is newer still. So the place is never among what a return frees.
-/
import AbstractMachine.Proofs.Machine.Calls
import AbstractMachine.Proofs.Machine.Passing
import AbstractMachine.Proofs.Machine.Projection
import AbstractMachine.Proofs.Machine.Returning

namespace AbstractMachine

/-! ## The memory of a local -/

/-- Where the allocation of a local is known by its number, it is the one that houses the local. -/
theorem Housed.houses_of_getElem? {frames : List Frame} {m : Memory} {i : Nat} {f : Frame}
    {name : String} {p : Pointer} {k : Nat} {a : Allocation} (h : Housed frames m)
    (has : HasLocal frames i f name p) (named : p.provenance = some ⟨k⟩)
    (found : m.allocations[k]? = some a) : ∃ place, Houses m f name p place a := by
  obtain ⟨place, b, house⟩ := h.houses has
  have id : b.id = ⟨k⟩ := Option.some.inj (house.provenance.symm.trans named)
  have there := house.found
  rw [id, Memory.allocation_natCast, found] at there
  obtain rfl := Option.some.inj there
  exact ⟨place, house⟩

/-- All bytes of the memory of a local can be loaded at once. -/
theorem Memory.load_of_houses {m : Memory} {f : Frame} {name : String} {p : Pointer}
    {place : PlaceTy} {a : Allocation} (laid : m.Laid) (house : Houses m f name p place a) :
    m.load p (place.byteSize m.target) place.align = .ok a.contents := by
  have granted := (Lies.of_houses laid house).checkPtr laid
  have size := house.size
  rw [Allocation.size] at size
  rw [load, granted]
  by_cases empty : place.byteSize m.target = 0
  · have none : a.contents = [] := List.length_eq_zero_iff.1 (by omega)
    rw [if_pos empty, none]
    rfl
  · have whole : Slice.read a.contents 0 (0 + place.byteSize m.target) = a.contents :=
      Slice.read_of_length_eq size
    have start : p.addr - a.addr = 0 := by rw [house.base, Allocation.base, Int.sub_self]
    rw [if_neg empty]
    show Except.ok (Slice.read a.contents (p.addr - a.addr) _) = _
    rw [start, whole]

namespace Machine

variable {target : Target} {m m' : Machine} {callee : ValueExpr}
  {arguments : List (ValueExpr × ArgAbi)} {result : PlaceExpr} {next : Option String}

/-- A value of a sound type is found in its bytes. -/
theorem typedLoad_of_encode {mem : Memory} {p : Pointer} {v : Value} {ty : Ty} {align : Int}
    {data : List AbsByte} (width : 1 ≤ mem.target.ptrSize) (sound : ty.All (Ty.Sound mem.target))
    (encoded : ty.encode mem.target v = .ok data)
    (loaded : mem.load p data.length align = .ok data) : mem.typedLoad p ⟨ty, align⟩ = .ok v := by
  obtain ⟨wellFormed, bytes⟩ := Ty.encode_eq_ok_iff.1 encoded
  refine Memory.typedLoad_eq_ok_iff.2 ⟨data, ?_, ?_⟩
  · show mem.load p (ty.byteSize mem.target) align = .ok data
    rw [← length_of_encode sound encoded]
    exact loaded
  · have legible := sound.every.imp fun _ s => s.legible
    exact Ty.decode_of_fillsPadding width legible wellFormed bytes (.refl ty data)

/-- A local lives at a pointer to the start of memory with exactly these bytes. -/
def Filled (m : Machine) (f : Frame) (name : String) (p : Pointer) (data : List AbsByte) : Prop :=
  f.locals.find? name = some p ∧ ∃ a, p = a.base ∧ m.store.memory.allocation a.id = .ok a ∧
    a.live = true ∧ a.contents = data

theorem Filled.of_houses {f : Frame} {name : String} {p : Pointer} {place : PlaceTy} {a : Allocation}
    (living : f.locals.find? name = some p) (house : Houses m.store.memory f name p place a) :
    Filled m f name p a.contents :=
  ⟨living, a, house.base, house.found, house.live, rfl⟩

/-- What the innermost frame receives fills the memory of the parameter, and is found there. -/
theorem Receives.exists_filled {N : Nat} {g : Frame} {rest : List Frame} {name : String} {v : Value}
    {ty : Ty} (h : Receives N g m name v ty) (top : m.stack = g :: rest)
    (housed : Housed m.stack m.store.memory) (laid : m.store.memory.Laid)
    (width : 1 ≤ m.target.ptrSize) (sound : ty.All (Ty.Sound m.target)) :
    ∃ data place p, ty.encode m.target v = .ok data ∧ g.localTy name = .ok place ∧
      Filled m g name p data ∧ m.store.memory.typedLoad p ⟨ty, place.align⟩ = .ok v := by
  obtain ⟨p, k, a, living, named, -, found, encoded⟩ := h
  have has : HasLocal m.stack 0 g name p := by
    rw [top]
    exact hasLocal_zero_iff.2 ⟨rfl, living⟩
  obtain ⟨place, house⟩ := housed.houses_of_getElem? has named found
  have loaded : m.store.memory.load p a.contents.length place.align = .ok a.contents := by
    have size : (a.contents.length : Int) = place.byteSize m.target := house.size
    rw [size]
    exact Memory.load_of_houses laid house
  exact ⟨a.contents, place, p, encoded, house.declared, .of_houses living house,
    typedLoad_of_encode width sound encoded loaded⟩

namespace Course

/-! ## The call -/

/-- What a call leaves behind, compared to the machine in which it began. -/
structure Enters (c : Course callee arguments result next m m') : Prop where
  caller : m.stack = c.caller :: c.below
  stack : m'.stack = c.entered :: { c.caller with block := next, index := 0 } :: c.below
  awaits : c.entered.result = some c.awaiting
  arity : c.entered.function.params.length = arguments.length
  /-- The result local lives, and the parameters do, and no other local. -/
  locals : c.entered.locals.keys =
    c.entered.function.result :: c.entered.function.params.map (·.1)
  /-- Each of them has memory that there was not before. -/
  fresh : ∀ name p, c.entered.locals.find? name = some p → p.Beyond m.allocated
  /-- They share no memory. -/
  apart : ∀ name other p q, c.entered.locals.find? name = some p →
    c.entered.locals.find? other = some q → p.provenance = q.provenance → name = other
  /-- The memory of the result is uninitialised. The place that waits for it is as long. -/
  result : ∃ place p, c.entered.localTy c.entered.function.result = .ok place ∧
    Filled m' c.entered c.entered.function.result p (AbsByte.blank (place.byteSize m.target)) ∧
    c.awaiting.2.byteSize m.target = place.byteSize m.target
  /-- The memory of a parameter holds the bytes of what its argument evaluated to, in the caller,
  once the arguments before it had been passed; and the value is found there. -/
  params : ∀ (i : Nat) e given name expected, arguments[i]? = some (e, given) →
    c.entered.function.params[i]? = some (name, expected) →
    ∃ g n v ty n' data place p,
      passArguments (arguments.take i) (c.entered.function.params.take i)
        { c.readied with result := some c.awaiting } c.found = (.ok g, n) ∧
      n.stack = m.stack ∧ evalValue e n = (.ok (v, ty), n') ∧ ty.encode m.target v = .ok data ∧
      c.entered.localTy name = .ok place ∧ Filled m' c.entered name p data ∧
      m'.store.memory.typedLoad p ⟨ty, place.align⟩ = .ok v

variable (c : Course callee arguments result next m m')

/-- Until the arguments are passed, the only local of the callee is that of its result, in new memory,
and the place that waits for it is older. -/
theorem readies (confined : Confined m.allocated m) (hcallee : callee.In .unforged)
    (hresult : result.In .unforged) :
    Onward m.allocated m c.found ∧
      (∀ id, c.awaiting.1.provenance = some id → id.index < m.allocated) ∧
      ∃ place k a, c.fresh.localTy c.fresh.function.result = .ok place ∧
        c.readied = { c.fresh with locals := ⟨[(c.fresh.function.result, c.slot)]⟩ } ∧
        c.slot.provenance = some ⟨(k : Nat)⟩ ∧ m.allocated ≤ k ∧
        c.found.store.memory.allocations[k]? = some a ∧
        a.contents = AbsByte.blank (place.byteSize m.target) := by
  have constants : ∀ v ty, Fragment.unforged.value (.constant v ty) →
      Named (fun id => id.index < m.allocated) (v, ty) := fun v ty none id carries =>
    absurd carries (none v ty rfl id)
  obtain ⟨first, -, same⟩ := Onward.of_evaluates confined
    (evaluates_evalValue confined.numbered confined.within constants callee hcallee)
    (spares_evalValue constants callee hcallee) c.calls
  obtain ⟨-, function, -, start⟩ := newFrame_eq_ok_iff.1 c.frames
  obtain ⟨place, a, mem, journal, -, declared, made, readied, begun⟩ := beginLocal_eq_ok c.begins
  have second : Onward m.allocated m c.begun := by
    rw [begun]
    exact first.trans (.of_made first.confined made journal)
  obtain ⟨third, awaiting, -⟩ := Onward.of_evaluates second.confined
    (evaluates_evalPlace second.confined.numbered second.confined.within constants result hresult)
    (spares_evalPlace constants result hresult) c.finds
  have there : c.begun.store.memory.allocations[c.evaluated.allocated]? = some a := by
    rw [begun]
    exact made.getElem?_length
  refine ⟨second.trans third, awaiting, place, c.evaluated.allocated, a, declared, ?_, ?_,
    first.grown, third.getElem? first.grown there, ?_⟩
  · rw [readied, start]
    rfl
  · rw [made.base, Allocation.base, made.id]
  · rw [made.contents]
    exact congrArg (fun t => AbsByte.blank (place.byteSize t)) first.target

/-- The frame that is called lies on the caller's, which will go on where the call says. -/
theorem stack_eq : m'.stack =
    c.entered :: { c.caller with block := next, index := 0 } :: c.below := by
  obtain ⟨journal, after⟩ := c.after
  exact congrArg Machine.stack after

theorem memory_eq : m'.store.memory = c.passed.store.memory := by
  obtain ⟨journal, after⟩ := c.after
  have same := congrArg (fun m : Machine => m.store.memory) after
  exact same

/-- A call hands on its arguments. -/
theorem enters (confined : Confined m.allocated m) (hcallee : callee.In .unforged)
    (hresult : result.In .unforged) (unforged : ∀ a ∈ arguments, a.1.In .unforged)
    (written : ∀ a ∈ arguments, a.1.In (.written (Ty.All (Ty.Sound target))))
    (width : 1 ≤ target.ptrSize) (runsOn : m.target = target) (declares : m.Declares target)
    (housed : Housed m'.stack m'.store.memory) (laid : m'.store.memory.Laid) : c.Enters := by
  obtain ⟨before, -, place, k, a, declared, readied, named, beyond, found, blank⟩ :=
    c.readies confined hcallee hresult
  have arity : c.readied.function.params.length = arguments.length := by
    rw [readied]
    exact c.arity
  have declares' : c.found.Declares target := fun f hf => declares f (before.stack ▸ hf)
  have passed := passed_of_passArguments arity unforged written before.confined before.grown
    (before.target.trans runsOn) declares' c.passes
  have function : c.entered.function = c.readied.function := passed.later.function
  have onward := before.trans passed.onward
  have memory := c.memory_eq
  have runsOn' : m'.target = target := by
    show m'.store.memory.target = target
    rw [memory]
    exact onward.target.trans runsOn
  have living_iff {name p} : c.readied.locals.find? name = some p ↔
      c.readied.function.result = name ∧ c.slot = p := by
    rw [readied]
    exact Table.find?_singleton_iff
  have has {name p} (living : c.entered.locals.find? name = some p) :
      HasLocal m'.stack 0 c.entered name p := by
    rw [c.stack_eq]
    exact hasLocal_zero_iff.2 ⟨rfl, living⟩
  refine {
    caller := onward.stack.symm.trans c.stack
    stack := c.stack_eq
    awaits := passed.later.result
    arity := function ▸ arity
    locals := ?_
    fresh := ?_
    apart := ?_
    result := ?_
    params := ?_ }
  · rw [passed.keys, function, readied]
    rfl
  · intro name p living
    rcases passed.later.fresher name p living with old | new
    · exact (living_iff.1 old).2 ▸ ⟨k, named, beyond⟩
    · exact new.mono before.grown
  · intro name other p q living living' same
    exact (housed.distinct (has living) (has living') same).2
  · have living := passed.keeps _ _ (living_iff.2 ⟨rfl, rfl⟩)
    have there := memory ▸ passed.onward.getElem? beyond found
    obtain ⟨place', house⟩ := housed.houses_of_getElem? (has living) named there
    have filled := Filled.of_houses living house
    rw [blank, ← function] at filled
    have declared' : c.entered.localTy c.entered.function.result = .ok place := by
      rw [passed.later.toSameCall.localTy, function, readied]
      exact declared
    obtain ⟨place₂, declared₂, fits⟩ := c.fits
    obtain rfl := Except.ok.inj (declared.symm.trans declared₂)
    rw [before.target] at fits
    exact ⟨place, c.slot, declared', filled, fits⟩
  · intro i e given name expected argument param
    rw [function] at param
    obtain ⟨g, n, v, ty, n', prior, stack, evaluated, receives⟩ :=
      passed.received i e given name expected argument param
    have sound : ty.All (Ty.Sound target) :=
      answers_evalValue (fun f hf => declares' f (stack ▸ hf)) e
        (written _ (List.mem_of_getElem? argument)) evaluated
    obtain ⟨data, place, p, encoded, declared, filled, found⟩ :=
      (receives.congr memory).exists_filled c.stack_eq housed laid (runsOn'.symm ▸ width)
        (runsOn'.symm ▸ sound)
    exact ⟨g, n, v, ty, n', data, place, p, function ▸ prior, stack.trans before.stack, evaluated,
      runsOn.symm ▸ runsOn' ▸ encoded, declared, filled, found⟩

/-! ## The return -/

/-- What the return that matches a call leaves behind. -/
structure Leaves (c : Course callee arguments result next m m') (m₂ m₃ : Machine) (g : Frame) :
    Prop where
  same : c.entered.SameCall g
  returns : Returns m₂ m₃ g ({ c.caller with block := next, index := 0 } :: c.below)
  goesOn : next.isSome = true
  /-- What was in the result local is found in the place that was waiting. -/
  result : ∃ place p v, g.localTy g.function.result = .ok place ∧
    g.locals.find? g.function.result = some p ∧ m₂.store.memory.typedLoad p place = .ok v ∧
    m₃.store.memory.typedLoad c.awaiting.1 ⟨place.ty, c.awaiting.2.align⟩ = .ok v
  /-- No local of the frame that was left has live memory. -/
  freed : ∀ name p, g.locals.find? name = some p → ∃ a, p.provenance = some a.id ∧
    m₃.store.memory.allocation a.id = .ok a ∧ a.live = false
  /-- No byte outside of that place has changed. -/
  kept : ∀ (k : Nat) a, m₂.store.memory.allocations[k]? = some a →
    ∃ b, m₃.store.memory.allocations[k]? = some b ∧ b.contents.length = a.contents.length ∧
      ∀ i : Nat, ¬(c.awaiting.1.provenance = some ⟨k⟩ ∧ c.awaiting.1.addr ≤ a.addr + i ∧
        a.addr + i < c.awaiting.1.addr + c.awaiting.2.byteSize m.target) →
        b.contents[i]? = a.contents[i]?

variable {program : Program} {chooser : Chooser} {predictor : Predictor} {m₂ m₃ : Machine}

/-- The place that waits is older than the memory of every local of the callee, now and later. -/
theorem not_awaited {g : Frame} {name : String} {p : Pointer} {k : Nat} (enters : c.Enters)
    (older : ∀ id, c.awaiting.1.provenance = some id → id.index < m.allocated)
    (grown : m.allocated ≤ m'.allocated) (later : c.entered.Later m'.allocated g)
    (living : g.locals.find? name = some p) (awaited : c.awaiting.1.provenance = some ⟨k⟩) :
    p.provenance ≠ some ⟨k⟩ := by
  intro same
  have beyond : p.Beyond m.allocated := by
    rcases later.fresher name p living with old | new
    · exact enters.fresh name p old
    · exact new.mono grown
  obtain ⟨l, named, far⟩ := beyond
  obtain rfl := Memory.number_unique same named
  have near : (k : Int) < m.allocated := older ⟨k⟩ awaited
  omega

/-- A return hands on its result. -/
theorem leaves (reached : Reachable program target chooser predictor m') (enters : c.Enters)
    (older : ∀ id, c.awaiting.1.provenance = some id → id.index < m.allocated)
    (grown : m.allocated ≤ m'.allocated) (runsOn : m.target = target)
    (declared : program.Declares (Ty.All (Ty.Sound target)))
    (runs : RunsAbove (c.below.length + 1) m' m₂) (run : step m₂ = (.ok (), m₃))
    (down : m₃.stack.length ≤ c.below.length + 1) : ∃ g, c.Leaves m₂ m₃ g := by
  let base := { c.caller with block := next, index := 0 } :: c.below
  have before : m'.stack = [] ++ c.entered :: base := enters.stack
  have runs : RunsAbove base.length m' m₂ := runs
  obtain ⟨-, beside, g, split, later⟩ := runs.kept reached before
  have reached₂ := runs.reachable reached
  have returns := reached₂.returns split run down
  have reached₃ := reached₂.tail run
  obtain ⟨name, block, executes, last, terminator⟩ := returns.instruction
  rw [step_of_executes executes, instruction, last, terminator] at run
  have stack : (m₂.begun g name).stack = g :: base := returns.before
  obtain ⟨p, place, v, mem, living, declaredAs, loaded, delivers, frees⟩ :=
    exists_of_execReturn stack run
  have loaded : m₂.store.memory.typedLoad p place = .ok v := loaded
  have stored : m₂.store.memory.typedStore c.awaiting.1 v ⟨place.ty, c.awaiting.2.align⟩ =
    .ok mem := delivers _ _ (later.result.trans enters.awaits)
  obtain ⟨data, encoded, stored⟩ := Memory.typedStore_eq_ok_iff.1 stored
  have runsOn₂ : m₂.store.memory.target = target := reached₂.target_eq
  have runsOn₃ : m₃.store.memory.target = target := reached₃.target_eq
  have sound : place.ty.All (Ty.Sound target) :=
    reached₂.declares declared (returns.before ▸ List.mem_cons_self) declaredAs
  have length : (data.length : Int) = place.byteSize target :=
    length_of_encode sound (runsOn₂ ▸ encoded)
  have spared (k : Nat) (awaited : c.awaiting.1.provenance = some ⟨k⟩) :
      m₃.store.memory.allocations[k]? = mem.allocations[k]? := by
    refine frees.others k fun e he => ?_
    have tables := reached₂.housed.tables g (returns.before ▸ List.mem_cons_self)
    exact c.not_awaited enters older grown later (Table.find?_of_mem_entries tables he) awaited
  refine ⟨g, {
    same := later.toSameCall
    returns := returns
    goesOn := reached₂.goesOn returns
    result := ⟨place, p, v, declaredAs, living, loaded, ?_⟩
    freed := ?_
    kept := ?_ }⟩
  · have there : mem.load c.awaiting.1 data.length c.awaiting.2.align = .ok data :=
      Memory.load_of_store reached₂.numbered stored
    have there : m₃.store.memory.load c.awaiting.1 data.length c.awaiting.2.align = .ok data :=
      Memory.load_congr spared there
    exact typedLoad_of_encode (runsOn₃ ▸ reached₃.width) (runsOn₃ ▸ sound)
      (runsOn₃.trans runsOn₂.symm ▸ encoded) there
  · intro name p lives
    exact frees.exists_dead reached₃.numbered (Table.mem_entries_of_find? lives)
  · intro k a found
    obtain ⟨expected, -, declared, -, fits⟩ := enters.result
    have declared : g.localTy g.function.result = .ok expected := by
      rw [later.toSameCall.localTy, later.function]
      exact declared
    obtain rfl := Except.ok.inj (declaredAs.symm.trans declared)
    rw [fits, runsOn, ← length]
    exact frees.exists_of_store reached₂.numbered stored found

end Course

/-! ## Reachable machines -/

variable {program : Program} {chooser : Chooser} {predictor : Predictor}

/-- A reachable machine holds names of its allocations only. -/
theorem Reachable.confined (h : Reachable program target chooser predictor m)
    (constants : program.In .unforged) : Confined m.allocated m := by
  have sound : Sound True .unforged m m.stack (fun _ => False) m :=
    (h.sound constants fun v ty h _ => h v ty rfl).2
  refine ⟨h.numbered, fun id held => ?_⟩
  obtain ⟨a, found, -⟩ := sound.named trivial id (.inl held)
  obtain ⟨k, rfl, there⟩ := Memory.exists_getElem?_of_allocation found
  exact Int.ofNat_lt.2 (List.getElem?_eq_some_iff.1 there).1

/-- What stands in the block of a frame is in the part of the language that the program is in. -/
theorem Reachable.block_in {L : Fragment} {f : Frame} {name : String} {block : Block}
    (h : Reachable program target chooser predictor m) (code : program.In L)
    (executes : m.Executes f name block) : block.In L := by
  have sound : Sound False L m m.stack (fun _ => False) m :=
    (h.sound code fun _ _ _ => False.elim).2
  obtain ⟨rest, stack⟩ := executes.top
  exact Machine.block_in (sound.code f (stack ▸ List.mem_cons_self)) executes.current

/-- Calls hand on their arguments and their results. Let the types that a program is written with, and
those of its locals, have sound layouts, and its constants no provenance. If in a reachable state a call
succeeds, the callee has its result and its parameters as locals, in new memory, with the values of the
arguments; and if the return that matches the call succeeds, however much later, the result is found in
the place that was waiting for it, and all else is as it was. -/
theorem faithful_of_reachable {f : Frame} {name : String} {block : Block} {resultAbi : ArgAbi}
    {convention : CallingConvention} (h : Reachable program target chooser predictor m)
    (constants : program.In .unforged)
    (written : program.In (.written (Ty.All (Ty.Sound target))))
    (declared : program.Declares (Ty.All (Ty.Sound target))) (executes : m.Executes f name block)
    (last : block.statements[f.index]? = none)
    (calls : block.terminator = .call callee arguments result resultAbi next convention)
    (run : step m = (.ok (), m')) :
    ∃ c : Course callee arguments result next (m.begun f name) m', c.Enters ∧
      ∀ m₂ m₃, RunsAbove (c.below.length + 1) m' m₂ → step m₂ = (.ok (), m₃) →
        m₃.stack.length ≤ c.below.length + 1 → ∃ g, c.Leaves m₂ m₃ g := by
  have reached : Reachable program target chooser predictor m' := h.tail run
  have grown : m.allocated ≤ m'.allocated := by
    obtain ⟨_, _, _, _, -, -, -, stands⟩ := h.turn run
    exact stands.grown
  rw [step_of_executes executes, instruction, last, calls] at run
  obtain ⟨c⟩ := exists_course run
  have confined : Confined m.allocated (m.begun f name) := (h.confined constants).begun
  have unforged := (h.block_in constants executes).terminator
  have typed := (h.block_in written executes).terminator
  rw [calls] at unforged typed
  obtain ⟨hcallee, harguments, hresult⟩ := unforged
  have enters : c.Enters :=
    c.enters confined hcallee hresult harguments typed.2.1 h.width h.target_eq
      (fun f hf name place localTy => h.declares declared hf localTy) reached.housed reached.laid
  obtain ⟨-, older, -⟩ := c.readies confined hcallee hresult
  refine ⟨c, enters, fun m₂ m₃ runs returns down => ?_⟩
  exact c.leaves reached enters older grown h.target_eq declared runs returns down

/-! ## A function that hands back what it is given -/

/-- How values of a type are passed. -/
def passedAs (ty : Ty) : ArgAbi where
  size := ty.byteSize ⟨8, .little⟩
  align := 1

/-- A function that returns its argument. -/
def echo (ty : Ty) : Function where
  locals := ⟨[("ret", ⟨ty, 1⟩), ("x", ⟨ty, 1⟩)]⟩
  params := [("x", passedAs ty)]
  result := "ret"
  resultAbi := passedAs ty
  start := "start"
  blocks := ⟨[("start", ⟨[.assign (.var "ret") (.load (.var "x") false)], .ret⟩)]⟩

/-- A function that writes a value to a local, calls that function with an argument, and lets the
result take the place of the value. -/
def asking (ty : Ty) (v : Value) (e : ValueExpr) : Function where
  locals := ⟨[("ret", ⟨.tuple [] 0, 1⟩), ("y", ⟨ty, 1⟩)]⟩
  params := []
  result := "ret"
  resultAbi := { size := 0, align := 1 }
  start := "start"
  blocks := ⟨[("start", ⟨[.live "y", .assign (.var "y") (.constant v ty)],
    .call (.function "echo") [(e, passedAs ty)] (.var "y") (passedAs ty) (some "done") .rust⟩),
    ("done", ⟨[], .ret⟩)]⟩

/-- The program of the two. -/
def echoing (ty : Ty) (v : Value) (e : ValueExpr) : Program where
  functions := ⟨[("main", asking ty v e), ("echo", echo ty)]⟩

variable {ty : Ty} {v : Value} {e : ValueExpr}

theorem in_echoing {L : Fragment} (written : L.value (.constant v ty)) (asked : e.In L)
    (named : L.value (.function "echo")) (found : L.value (.load (.var "x") false)) :
    (echoing ty v e).In L := by
  have first : (echo ty).In L := by
    intro b hb
    obtain rfl := List.mem_singleton.1 hb
    exact ⟨List.forall_mem_singleton.2 ⟨trivial, found, trivial⟩, trivial⟩
  have second : (asking ty v e).In L := by
    intro b hb
    rcases List.mem_pair.1 hb with rfl | rfl
    · refine ⟨List.forall_mem_cons.2 ⟨trivial, ?_⟩, named, ?_, trivial⟩
      · exact List.forall_mem_singleton.2 ⟨trivial, written⟩
      · exact List.forall_mem_singleton.2 asked
    · exact ⟨nofun, trivial⟩
  exact List.forall_mem_cons.2 ⟨second, List.forall_mem_singleton.2 first⟩

theorem unforged_echoing (constant : ∀ id, ¬v.Carries id) (asked : e.In .unforged) :
    (echoing ty v e).In .unforged := by
  refine in_echoing ?_ asked ?_ ?_
  · rintro _ _ ⟨⟩
    exact constant
  · rintro _ _ ⟨⟩
  · rintro _ _ ⟨⟩

theorem written_echoing {P : Ty → Prop} (sound : P ty) (asked : e.In (.written P)) :
    (echoing ty v e).In (.written P) := by
  refine in_echoing ?_ asked ?_ ?_
  · exact List.forall_mem_singleton.2 sound
  · exact List.forall_mem_nil _
  · exact List.forall_mem_nil _

theorem declares_echoing {P : Ty → Prop} (h : P ty) (unit : P (.tuple [] 0)) :
    (echoing ty v e).Declares P := by
  rintro f ⟨name, hf⟩ d hd
  rcases List.mem_pair.1 hf with same | same
  · obtain rfl := congrArg Prod.snd same
    rcases List.mem_pair.1 hd with rfl | rfl
    · exact unit
    · exact h
  · obtain rfl := congrArg Prod.snd same
    rcases List.mem_pair.1 hd with rfl | rfl
    · exact h
    · exact h

/-- A number is written to a local, goes from there into the call, and comes back. -/
def echoingNumber : Program :=
  echoing (.int ⟨false, 1⟩) (.int 7) (.load (.var "y") true)

/-- The frame that calls, when it does. -/
def askingFrame : Frame where
  name := "main"
  function := asking (.int ⟨false, 1⟩) (.int 7) (.load (.var "y") true)
  block := some "start"
  index := 2
  locals := ⟨[("ret", ⟨3, some ⟨2⟩⟩), ("y", ⟨4, some ⟨3⟩⟩)]⟩

theorem all_sound_unit {target : Target} : (Ty.tuple [] 0).All (Ty.Sound target) :=
  .of_parts_eq_nil rfl (Ty.sound_tuple_iff.2 ⟨Int.le_refl 0, nofun, List.Pairwise.nil⟩)

/-- The number is in the callee's memory after the call, and in the caller's after the return. -/
theorem faithful_echoingNumber :
    ∃ c : Course (.function "echo") [(.load (.var "y") true, passedAs (.int ⟨false, 1⟩))] (.var "y")
        (some "done") ((afterSteps echoingNumber 2).begun askingFrame "start")
        (afterSteps echoingNumber 3),
      c.Enters ∧ ∃ g, c.Leaves (afterSteps echoingNumber 4) (afterSteps echoingNumber 5) g := by
  have number : (Ty.int ⟨false, 1⟩).All (Ty.Sound ⟨8, .little⟩) := Ty.all_sound_int
  have constants : echoingNumber.In .unforged := by
    refine unforged_echoing (fun id => Value.not_carries_int 7) ⟨?_, trivial⟩
    rintro _ _ ⟨⟩
  have written : echoingNumber.In (.written (Ty.All (Ty.Sound ⟨8, .little⟩))) :=
    written_echoing number ⟨List.forall_mem_nil _, trivial⟩
  have reached : Reachable echoingNumber ⟨8, .little⟩ inTurn .standard
      (afterSteps echoingNumber 2) :=
    reachable_afterSteps (by decide +kernel) (by decide +kernel)
  have calls : step (afterSteps echoingNumber 2) = (.ok (), afterSteps echoingNumber 3) :=
    step_afterSteps (by decide +kernel)
  have echoes : step (afterSteps echoingNumber 3) = (.ok (), afterSteps echoingNumber 4) :=
    step_afterSteps (by decide +kernel)
  have returns : step (afterSteps echoingNumber 4) = (.ok (), afterSteps echoingNumber 5) :=
    step_afterSteps (by decide +kernel)
  have executes : (afterSteps echoingNumber 2).Executes askingFrame "start" _ :=
    ⟨rfl, ⟨[], rfl⟩, rfl⟩
  obtain ⟨c, enters, leaves⟩ := faithful_of_reachable reached constants written
    (declares_echoing number all_sound_unit) executes rfl rfl calls
  obtain ⟨-, alone⟩ : askingFrame = c.caller ∧ [] = c.below := List.cons.inj enters.caller
  have during : RunsAbove (c.below.length + 1) (afterSteps echoingNumber 3)
      (afterSteps echoingNumber 4) := by
    rw [← alone]
    exact .single ⟨echoes, by decide +kernel⟩
  have after : (afterSteps echoingNumber 5).stack.length ≤ c.below.length + 1 := by
    rw [← alone]
    decide +kernel
  exact ⟨c, enters, leaves _ _ during returns after⟩

/-- The program writes a value to a local and calls with an argument. The call succeeds, but at the
type that came with the argument nothing can be loaded from the parameter. -/
def Garbles (fine : Ty → Prop) (ty : Ty) (v : Value) (e : ValueExpr) (asked : Ty) : Prop :=
  let program := echoing ty v e
  program.In .unforged ∧ program.In (.written fine) ∧ program.Declares fine ∧
    Reachable program ⟨8, .little⟩ inTurn .standard (afterSteps program 2) ∧
    step (afterSteps program 2) = (.ok (), afterSteps program 3) ∧
    (evalValue e (afterSteps program 2)).1.toOption.map (·.2) = some asked ∧
    ∃ p, (afterSteps program 3).stack.head?.bind (·.locals.find? "x") = some p ∧
      ((afterSteps program 3).store.memory.typedLoad p ⟨asked, 1⟩).toBool = false

/-- A tuple without bytes, around one of less than none. -/
def hollow : Ty := .tuple [⟨0, .tuple [] (-1)⟩] 0

/-- A layout to which nothing is missing, unless it is a size. -/
def Arranged (t : Ty) : Prop :=
  t.Tidy ⟨8, .little⟩ ∧ t.Counted ∧ t.TagsClear ⟨8, .little⟩ ∧ t.TagsRead ⟨8, .little⟩

theorem all_arranged_empty (size : Int) : (Ty.tuple [] size).All Arranged :=
  .of_parts_eq_nil rfl ⟨Ty.tidy_tuple_iff.2 ⟨nofun, List.Pairwise.nil⟩, trivial, trivial, trivial⟩

theorem all_arranged_hollow : hollow.All Arranged := by
  have inside : hollow.FieldsInside ⟨8, .little⟩ := List.forall_mem_singleton.2 (by decide)
  have apart : hollow.FieldsApart ⟨8, .little⟩ := List.pairwise_singleton _ _
  refine .intro ⟨Ty.tidy_tuple_iff.2 ⟨inside, apart⟩, trivial, trivial, trivial⟩ ?_
  exact List.forall_mem_singleton.2 (all_arranged_empty (-1))

/-- An enum of one variant, which is marked with another number than the one by which it is known. -/
def mismarked : EnumTy where
  variants := [⟨.tuple [] 1, [⟨0, ⟨false, 1⟩, 1⟩]⟩]
  discriminator := .branch 0 ⟨false, 1⟩ [⟨0, 1, .known 0⟩] .invalid
  discriminantTy := .int ⟨false, 1⟩
  size := 1

/-- A byte that may be looked at as such an enum. -/
def guise : Ty := .union ⟨[⟨0, .enum mismarked⟩], [⟨0, 1⟩], 1⟩

theorem every_sound_guise : guise.Every (Ty.Sound ⟨8, .little⟩) := by
  have sized : guise.Sized := Int.zero_le_ofNat 1
  have inside : guise.ChunksInside := List.forall_mem_singleton.2 (by decide)
  have apart : guise.ChunksApart := List.pairwise_singleton _ _
  have laidOut : guise.LaidOut ⟨8, .little⟩ := ⟨sized, trivial, inside, trivial, trivial⟩
  exact .intro ⟨laidOut, trivial, apart, trivial, trivial, trivial⟩ nofun

theorem garbles_hollow : Garbles (Ty.All Arranged) hollow (.tuple [.tuple []])
    (.constant (.tuple [.tuple []]) hollow) hollow := by
  have nameless (id : AllocId) : ¬(Value.tuple [.tuple []]).Carries id := by simp
  refine ⟨unforged_echoing nameless ?_, written_echoing all_arranged_hollow ?_,
    declares_echoing all_arranged_hollow (all_arranged_empty 0),
    reachable_afterSteps (by decide +kernel) (by decide +kernel),
    step_afterSteps (by decide +kernel), ?_, ⟨6, some ⟨5⟩⟩, ?_, ?_⟩
  · rintro _ _ ⟨⟩
    exact nameless
  · exact List.forall_mem_singleton.2 all_arranged_hollow
  · decide +kernel
  · decide +kernel
  · decide +kernel

theorem garbles_guise : Garbles (Ty.Every (Ty.Sound ⟨8, .little⟩)) guise
    (.union [[.init 0 none]]) (.load (.field (.var "y") 0) false) (.enum mismarked) := by
  have nameless (id : AllocId) : ¬(Value.union [[.init 0 none]]).Carries id := by
    simp [Carry, AbsByte.provenance?]
  refine ⟨unforged_echoing nameless ⟨?_, trivial⟩, written_echoing every_sound_guise ⟨?_, trivial⟩,
    declares_echoing every_sound_guise all_sound_unit.every,
    reachable_afterSteps (by decide +kernel) (by decide +kernel),
    step_afterSteps (by decide +kernel), ?_, ⟨6, some ⟨5⟩⟩, ?_, ?_⟩
  · rintro _ _ ⟨⟩
  · exact List.forall_mem_nil _
  · decide +kernel
  · decide +kernel
  · decide +kernel

/-- All types have to be sound, and sizes no less than zero. Otherwise the argument of a call may be
lost: if the size of a tuple inside of another one is negative, or if one of the types that a union may
be looked at as is not sound. -/
theorem garbles_hollow_guise :
    Garbles (Ty.All Arranged) hollow (.tuple [.tuple []]) (.constant (.tuple [.tuple []]) hollow)
        hollow ∧
      Garbles (Ty.Every (Ty.Sound ⟨8, .little⟩)) guise (.union [[.init 0 none]])
        (.load (.field (.var "y") 0) false) (.enum mismarked) :=
  ⟨garbles_hollow, garbles_guise⟩

end Machine

end AbstractMachine
