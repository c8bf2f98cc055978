/-
# AbstractMachine.Proofs.Refinement.Execution — more defined memory introduces no undefined behaviour

Every instruction of a program without casts from integers to pointers is followed, in the sense of
two runs, by the same instruction in more defined memory. So is every step, and by induction every
run: where the first machine comes to its end or panics so does the second, after as many steps and
with the same output. What the first one must not do the second may well do.

An allocation is the one operation of memory whose faults are found again. The chooser is asked the
same question in both machines, and gives the same answer, whatever it is.
-/
import AbstractMachine.Proofs.Refinement.Evaluation

namespace AbstractMachine

namespace Machine

variable {m n : Machine} {p q : Pointer} {v w : Value} {ty : Ty} {f g : Frame} {name : String}

theorem Related.withMemory (h : Related m n) {mem mem' : Memory} (le : mem.Le mem')
    (journal journal' : Journal) :
    Related (m.withMemory mem journal) (n.withMemory mem' journal') :=
  ⟨{ h.1 with memory := le }, h.2.program, h.2.frames⟩

namespace Follows

/-- Ordered frames may go on in step. -/
theorem modifyFrame {change change' : Frame → Frame}
    (h : ∀ f g, f.Related g → (change f).Related (change' g)) :
    Follows anyhow (modifyFrame change) (Machine.modifyFrame change') := by
  refine .modify fun m n related => related.withStack ?_
  have frames := related.frames
  generalize m.stack = fs at frames
  generalize n.stack = gs at frames
  cases frames with
  | nil => exact .nil
  | cons head tail => exact .cons (h _ _ head) tail

theorem note (e e' : Event) : Follows anyhow (note e) (Machine.note e') :=
  .modify fun _ _ ⟨le, code⟩ => ⟨{ le with }, code.program, code.frames⟩

theorem print (line : String) (toStderr : Bool) :
    Follows anyhow (print line toStderr) (Machine.print line toStderr) := by
  refine .modify fun m n ⟨le, code⟩ => ?_
  cases toStderr with
  | true =>
      exact ⟨{ le with stderr := congrArg (· ++ [line]) le.stderr }, code.program, code.frames⟩
  | false =>
      exact ⟨{ le with stdout := congrArg (· ++ [line]) le.stdout }, code.program, code.frames⟩

/-! ## Memory for locals and for the heap -/

/-- The chooser is asked the same in both machines, and gives the same answer. -/
theorem allocate {size align : Int} {kind : AllocKind} :
    Follows Same (onStore (Store.allocate size align kind))
      (onStore (Store.allocate size align kind)) := by
  have both {m m' n n' : Machine} {x y : Except Fault Pointer} (related : Related m n)
      (run : onStore (Store.allocate size align kind) m = (x, m'))
      (run' : onStore (Store.allocate size align kind) n = (y, n')) : y = x ∧ Related m' n' := by
    have made {m m' : Machine} {x : Except Fault Pointer}
        (run : onStore (Store.allocate size align kind) m = (x, m')) : ∃ mem journal,
          m.store.memory.allocate size align kind = (x, mem) ∧ m' = m.withMemory mem journal := by
      cases x with
      | ok p => exact onStore_allocate_eq_ok run
      | error e =>
          obtain ⟨mem, refused, same⟩ := onStore_allocate_eq_error run
          exact ⟨mem, _, refused, same⟩
    obtain ⟨mem, journal, answer, rfl⟩ := made run
    obtain ⟨mem', journal', answer', rfl⟩ := made run'
    have le := related.1.memory.allocate size align kind
    rw [answer, answer'] at le
    exact ⟨le.1, related.withMemory le.2 journal journal'⟩
  refine ⟨fun {m m' n p} related run => ?_, fun {m m' n e} related run _ => ?_⟩
  · rcases run' : onStore (Store.allocate size align kind) n with ⟨y, n'⟩
    obtain ⟨rfl, related⟩ := both related run run'
    exact ⟨p, n', rfl, rfl, related⟩
  · rcases run' : onStore (Store.allocate size align kind) n with ⟨y, n'⟩
    obtain ⟨rfl, related⟩ := both related run run'
    exact ⟨n', rfl, related⟩

theorem deallocate {size align : Int} {kind : AllocKind} (le : p.Le q) :
    Follows anyhow (onStore (Store.deallocate p size align kind))
      (onStore (Store.deallocate q size align kind)) := by
  refine .of_fails (fun m m' e run => ?_) fun {m m' n u} related run => ?_
  · obtain ⟨failed, -⟩ := onStore_deallocate_eq_error run
    exact (Memory.failsIn_deallocate (W := fun _ => True) (fun _ _ => trivial) _ failed).not_ends
  · obtain ⟨mem, journal, freed, rfl⟩ := onStore_deallocate_eq_ok run
    obtain ⟨mem', freed', below⟩ := Memory.deallocate_improves related.1.memory le freed
    obtain ⟨journal', done'⟩ := onStore_deallocate_of_ok freed'
    exact ⟨(), _, done', trivial, related.withMemory below journal journal'⟩

/-- A local comes alive at the same address in both machines. -/
theorem beginLocal (h : f.Related g) (name : String) :
    Follows (fun a b => a.1 = b.1 ∧ a.2.Related b.2) (beginLocal f name)
      (Machine.beginLocal g name) := by
  obtain ⟨le, code⟩ := h
  unfold Machine.beginLocal
  rw [le.locals, le.localTy]
  refine Follows.bindNeed trivial ?_
  refine Follows.bindExcept (f.failsIn_localTy name) fun place _ => ?_
  refine Follows.getTarget.bindSame fun target => ?_
  refine Follows.allocate.bindSame fun p => ?_
  exact .pure ⟨rfl, { le with locals := rfl }, code⟩

theorem freeLocal (h : f.Le g) (name : String) (p : Pointer) :
    Follows anyhow (freeLocal f name p) (Machine.freeLocal g name p) := by
  unfold Machine.freeLocal
  rw [h.localTy]
  refine Follows.bindExcept (f.failsIn_localTy name) fun place _ => ?_
  refine Follows.getTarget.bindSame fun target => ?_
  exact Follows.deallocate ⟨rfl, provenanceLe_refl _⟩

end Follows

/-! ## Statements -/

theorem follows_storageLive (name : String) :
    Follows anyhow (storageLive name) (storageLive name) :=
  Follows.frame.bind fun _ _ h => (Follows.beginLocal h name).bind fun _ _ begun =>
    Follows.modifyFrame fun _ _ _ => begun.2

theorem follows_storageDead (name : String) :
    Follows anyhow (storageDead name) (storageDead name) := by
  refine Follows.frame.bind fun f g ⟨le, _⟩ => ?_
  rw [le.locals]
  cases f.locals.find? name with
  | none => exact Follows.fault trivial
  | some p =>
      -- The frame looked at is the one from before the local was erased.
      refine Action.Simulates.bind (Follows.modifyFrame fun f g h => ?_) fun _ _ _ =>
        Follows.freeLocal le name p
      exact ⟨{ h.1 with locals := congrArg (·.erase name) h.1.locals }, h.2⟩

theorem follows_storeTag (le : p.Le q) {align : Int} (writes : List TagWrite) :
    Follows anyhow (storeTag p align writes) (storeTag q align writes) := by
  induction writes with
  | nil => exact .pure trivial
  | cons t writes ih =>
      rw [storeTag, storeTag]
      refine (Follows.offsetInBounds le).bind fun _ _ moved => ?_
      exact (Follows.typedStore moved (Value.le_refl _)).bind fun _ _ _ => ih

/-- Every statement is followed by itself. -/
theorem follows_execute {s : Statement} (h : s.In .castFree) :
    Follows anyhow (execute s) (execute s) := by
  cases s with
  | assign destination source =>
      refine (follows_evalValue source h.2).bind ?_
      rintro ⟨v, _⟩ ⟨w, _⟩ value
      refine (follows_evalPlace destination h.1).bind ?_
      rintro ⟨p, place⟩ ⟨q, _⟩ ⟨le, rfl⟩
      exact Follows.typedStore le value.1
  | finalize place =>
      refine (follows_evalPlace place h).bind ?_
      rintro ⟨p, place⟩ ⟨q, _⟩ ⟨le, rfl⟩
      exact (Follows.typedLoad le).bind fun _ _ _ => .pure trivial
  | live name => exact follows_storageLive name
  | dead name => exact follows_storageDead name
  | setDiscriminant place d =>
      refine (follows_evalPlace place h).bind ?_
      rintro ⟨p, ⟨ty, align⟩⟩ ⟨q, _⟩ ⟨le, rfl⟩
      cases ty with
      | enum e =>
          refine Follows.bindExcept (e.failsIn_variantAt d) fun variant _ => ?_
          exact follows_storeTag le variant.tagger
      | _ => exact Follows.fault trivial
  | deinit place =>
      refine (follows_evalPlace place h).bind ?_
      rintro ⟨p, place⟩ ⟨q, _⟩ ⟨le, rfl⟩
      exact Follows.deinit le
  | validate place =>
      refine (follows_evalPlace place h).bind ?_
      rintro ⟨p, place⟩ ⟨q, _⟩ ⟨le, rfl⟩
      refine (Follows.typedLoad le).bind fun _ _ value => ?_
      exact (Follows.retagValue value).bind fun _ _ retagged => Follows.typedStore le retagged
  | mention place => exact (follows_evalPlace place h).bind fun _ _ _ => .pure trivial

/-! ## Intrinsics -/

theorem follows_printAll (toStderr : Bool) {arguments arguments' : List (Value × Ty)}
    (h : List.Forall₂ TypedLe arguments arguments') :
    Follows anyhow (printAll toStderr arguments) (printAll toStderr arguments') := by
  induction h with
  | nil => exact .pure trivial
  | @cons a b _ _ head _ ih =>
      rw [printAll, printAll]
      refine (Follows.ofExcept (failsIn_printed a) (printed_improves head)).bindSame fun line => ?_
      exact (Follows.print line toStderr).bind fun _ _ _ => ih

theorem follows_intArgument {a b : Value × Ty} (le : TypedLe a b) :
    Follows Same (Action.ofExcept (intArgument a)) (Action.ofExcept (intArgument b)) :=
  .ofExcept (failsIn_intArgument a) (intArgument_improves le)

theorem follows_ptrArgument {a b : Value × Ty} (le : TypedLe a b) :
    Follows Pointer.Le (Action.ofExcept (ptrArgument a)) (Action.ofExcept (ptrArgument b)) :=
  .ofExcept (failsIn_ptrArgument a) (ptrArgument_improves le)

/-- Every intrinsic but the cast is followed by itself. -/
theorem follows_performIntrinsic {op : IntrinsicOp} (notCast : op ≠ .withExposedProvenance)
    {arguments arguments' : List (Value × Ty)} (h : List.Forall₂ TypedLe arguments arguments') :
    Follows TypedLe (performIntrinsic op arguments) (performIntrinsic op arguments') := by
  have unit : Follows TypedLe (pure (.unit, .unit)) (pure (.unit, .unit)) :=
    .pure ⟨Value.le_refl _, rfl⟩
  cases op with
  | printStdout => exact (follows_printAll false h).bind fun _ _ _ => unit
  | printStderr => exact (follows_printAll true h).bind fun _ _ _ => unit
  | exit =>
      cases h with
      | nil => exact .throw
      | cons => exact Follows.fault trivial
  | panic =>
      cases h with
      | nil => exact .throw
      | cons => exact Follows.fault trivial
  | allocate =>
      rcases h with _ | ⟨size, _ | ⟨align, _ | _⟩⟩
      · exact Follows.fault trivial
      · exact Follows.fault trivial
      · refine (follows_intArgument size).bindSame fun size => ?_
        refine (follows_intArgument align).bindSame fun align => ?_
        refine Follows.allocate.bindSame fun p => ?_
        exact .pure ⟨Value.le_refl _, rfl⟩
      · exact Follows.fault trivial
  | deallocate =>
      rcases h with _ | ⟨ptr, _ | ⟨size, _ | ⟨align, _ | _⟩⟩⟩
      · exact Follows.fault trivial
      · exact Follows.fault trivial
      · exact Follows.fault trivial
      · refine (follows_ptrArgument ptr).bind fun p q le => ?_
        refine (follows_intArgument size).bindSame fun size => ?_
        refine (follows_intArgument align).bindSame fun align => ?_
        exact (Follows.deallocate le).bind fun _ _ _ => unit
      · exact Follows.fault trivial
  | exposeProvenance =>
      rcases h with _ | ⟨ptr, _ | _⟩
      · exact Follows.fault trivial
      · refine (follows_ptrArgument ptr).bind fun p q le => ?_
        refine (Follows.expose le).bindSame fun addr => ?_
        refine Follows.getTarget.bindSame fun target => ?_
        exact .pure ⟨Value.le_refl _, rfl⟩
      · exact Follows.fault trivial
  | withExposedProvenance => exact absurd rfl notCast
  | assume =>
      rcases h with _ | @⟨⟨v, ty⟩, ⟨w, _⟩, _, _, le, _ | _⟩
      · exact Follows.fault trivial
      · cases v with
        | bool holds =>
            obtain rfl := Value.bool_le_iff.1 le.1
            exact Follows.bindNeed trivial unit
        | _ => exact Follows.fault trivial
      · cases v <;> exact Follows.fault trivial

theorem follows_jump (block : String) : Follows anyhow (jump block) (jump block) := by
  refine Follows.frame.bind fun f g ⟨le, _⟩ => ?_
  rw [le.function, le.name]
  refine Follows.bindNeed trivial (Follows.modifyFrame fun f g h => ⟨?_, h.2⟩)
  exact { h.1 with block := rfl, index := rfl }

theorem follows_evalResult {place : Option PlaceExpr} (h : ∀ e ∈ place, e.In .castFree) :
    Follows (Option.Rel PlaceLe) (evalResult place) (evalResult place) := by
  cases place with
  | none => exact .pure .none
  | some e => exact (follows_evalPlace e (h e rfl)).bind fun _ _ le => .pure (.some le)

theorem follows_storeResult (value : v.le w = true) {r r' : Option (Pointer × PlaceTy)}
    (h : Option.Rel PlaceLe r r') : Follows anyhow (storeResult v ty r) (storeResult w ty r') := by
  cases h with
  | none => exact .pure trivial
  | @some a b le =>
      obtain ⟨p, place⟩ := a
      obtain ⟨q, _⟩ := b
      obtain ⟨le, rfl⟩ := le
      exact Follows.bindNeed trivial (Follows.typedStore le value)

theorem follows_execIntrinsic {op : IntrinsicOp} {arguments : List ValueExpr}
    {result : Option PlaceExpr} {next : Option String}
    (h : (Terminator.intrinsic op arguments result next).In .castFree) :
    Follows anyhow (execIntrinsic op arguments result next)
      (execIntrinsic op arguments result next) := by
  obtain ⟨notCast, harguments, hresult⟩ := h
  refine (follows_evalAll arguments (ValueExpr.allIn_iff.2 harguments)).bind fun vs ws all => ?_
  refine (follows_evalResult hresult).bind fun r r' places => ?_
  refine (follows_performIntrinsic notCast all).bind ?_
  rintro ⟨v, ty⟩ ⟨w, _⟩ ⟨le, rfl⟩
  refine (follows_storeResult le places).bind fun _ _ _ => ?_
  cases next with
  | none => exact Follows.fault trivial
  | some block => exact follows_jump block

/-! ## Calls and returns -/

theorem follows_passArguments : ∀ (arguments : List (ValueExpr × ArgAbi))
    (params : List (String × ArgAbi)) {f g : Frame}, f.Related g →
    (∀ a ∈ arguments, a.1.In .castFree) →
    Follows Frame.Related (passArguments arguments params f) (passArguments arguments params g)
  | (e, given) :: arguments, (name, expected) :: params, f, g, related, h => by
      obtain ⟨head, tail⟩ := List.forall_mem_cons.1 h
      rw [passArguments, passArguments]
      refine (follows_evalValue e head).bind ?_
      rintro ⟨v, ty⟩ ⟨w, _⟩ ⟨value, rfl⟩
      refine Follows.bindNeed trivial ?_
      rw [related.1.localTy]
      refine Follows.bindExcept (f.failsIn_localTy name) fun place _ => ?_
      refine Follows.getTarget.bindSame fun target => ?_
      refine Follows.bindNeed trivial ((Follows.beginLocal related name).bind ?_)
      rintro ⟨p, f⟩ ⟨_, g⟩ ⟨rfl, related⟩
      refine (Follows.typedStore ⟨rfl, provenanceLe_refl _⟩ value).bind fun _ _ _ => ?_
      exact follows_passArguments arguments params related tail
  | [], params, f, g, related, _ => by
      rw [passArguments_nil, passArguments_nil]
      exact .pure related
  | a :: arguments, [], f, g, related, _ => by
      rw [passArguments_of_no_params, passArguments_of_no_params]
      exact .pure related

/-- The same function is called, since functions are told apart by their addresses. -/
theorem follows_calledFunction (le : v.le w = true) :
    Follows Same (Action.ask fun m => m.calledFunction v)
      (Action.ask fun m => m.calledFunction w) := by
  refine .of_fails (.ask fun m => failsIn_calledFunction m v) ?_
  intro m m' n name related run
  obtain ⟨called, rfl⟩ := Prod.mk.inj run
  refine ⟨name, n, ?_, rfl, related⟩
  cases v with
  | ptr p =>
      obtain ⟨q, rfl, addr, -⟩ := Value.ptr_le_iff.1 le
      have same : n.calledFunction (.ptr q) = m.calledFunction (.ptr p) := by
        simp only [calledFunction, functionAt?, related.1.functions, addr]
      exact congrArg (·, n) (same.trans called)
  | _ => cases called

theorem follows_newFrame (name : String) :
    Follows Frame.Related (newFrame name) (newFrame name) := by
  refine .of_fails (fun m m' e run => ?_) fun {m m' n f} related run => ?_
  · obtain ⟨-, rfl⟩ := newFrame_eq_error run
    exact not_false
  · obtain ⟨rfl, function, found, rfl⟩ := newFrame_eq_ok_iff.1 run
    have code := related.2.program _ (Table.mem_entries_of_find? found)
    rw [← related.1.program] at found
    exact ⟨_, n, newFrame_eq_ok_iff.2 ⟨rfl, function, found, rfl⟩, ⟨.refl _, code⟩, related⟩

theorem follows_execCall {callee : ValueExpr} {arguments : List (ValueExpr × ArgAbi)}
    {result : PlaceExpr} {resultAbi : ArgAbi} {next : Option String}
    {convention : CallingConvention}
    (h : (Terminator.call callee arguments result resultAbi next convention).In .castFree) :
    Follows anyhow (execCall callee arguments result resultAbi next convention)
      (execCall callee arguments result resultAbi next convention) := by
  obtain ⟨hcallee, harguments, hresult⟩ := h
  refine (follows_evalValue callee hcallee).bind ?_
  rintro ⟨v, _⟩ ⟨w, _⟩ value
  refine (follows_calledFunction value.1).bindSame fun name => ?_
  refine (follows_newFrame name).bind fun f g related => ?_
  obtain ⟨le, code⟩ := related
  rw [le.function, le.localTy]
  refine Follows.bindNeed trivial ?_
  refine Follows.bindNeed trivial ?_
  refine Follows.bindExcept (f.failsIn_localTy _) fun resultPlace _ => ?_
  refine (Follows.beginLocal ⟨le, code⟩ _).bind ?_
  rintro ⟨_, f'⟩ ⟨_, g'⟩ ⟨-, related⟩
  refine (follows_evalPlace result hresult).bind ?_
  rintro ⟨p, _⟩ ⟨q, place⟩ ⟨at_, rfl⟩
  rw [related.1.function]
  refine Follows.bindNeed trivial (Follows.getTarget.bindSame fun target => ?_)
  refine Follows.bindNeed trivial ?_
  -- The result goes to a place of the caller, which is at most as defined in the first machine.
  have awaiting : Frame.Related { f' with result := some (p, place) }
      { g' with function := f'.function, result := some (q, place) } :=
    ⟨{ related.1 with function := rfl, result := .some ⟨at_, rfl⟩ }, related.2⟩
  refine (follows_passArguments arguments _ awaiting harguments).bind fun f g pushed => ?_
  refine Follows.frame.bind fun caller caller' _ => ?_
  refine (Follows.modifyFrame fun f g h => ?_).bind fun _ _ _ => ?_
  · exact ⟨{ h.1 with block := rfl, index := rfl }, h.2⟩
  refine Action.Simulates.bind (V := anyhow) ?_ fun _ _ _ => Follows.note _ _
  exact .modify fun m n related => related.withStack (.cons pushed related.frames)

theorem follows_popFrame : Follows Frame.Related popFrame popFrame := by
  refine .of_fails (fun m m' e run => ?_) fun {m m' n f} related run => ?_
  · obtain ⟨-, -, rfl⟩ := popFrame_eq_error run
    exact not_false
  · obtain ⟨stack, same⟩ := popFrame_eq_ok_iff.1 run
    obtain ⟨g, rest, top, below, stack'⟩ := List.forall₂_cons_left_iff.1 (stack ▸ related.frames)
    refine ⟨g, { n with stack := rest }, popFrame_eq_ok_iff.2 ⟨stack', rfl⟩, top, ?_⟩
    rw [same]
    exact related.withStack below

theorem follows_deliver (value : v.le w = true) {r r' : Option (Pointer × PlaceTy)}
    (h : Option.Rel PlaceLe r r') : Follows anyhow (deliver v ty r) (deliver w ty r') := by
  cases h with
  | none => exact .pure trivial
  | @some a b le =>
      obtain ⟨p, place⟩ := a
      obtain ⟨q, _⟩ := b
      obtain ⟨le, rfl⟩ := le
      exact Follows.typedStore le value

theorem follows_freeLocals (h : f.Le g) (entries : List (String × Pointer)) :
    Follows anyhow (freeLocals f entries) (freeLocals g entries) := by
  induction entries with
  | nil => exact .pure trivial
  | cons e entries ih =>
      rw [freeLocals, freeLocals]
      exact (Follows.freeLocal h e.1 e.2).bind fun _ _ _ => ih

/-- Both machines come to their end, or both go on. -/
theorem follows_resume : Follows anyhow resume resume := by
  refine Action.Simulates.get.bind fun m n related => ?_
  have frames := related.1.stack
  generalize m.stack = fs at frames ⊢
  generalize n.stack = gs at frames ⊢
  cases frames with
  | nil => exact .throw
  | cons le _ =>
      simp only [le.block]
      exact Follows.need trivial

theorem follows_execReturn : Follows anyhow execReturn execReturn := by
  refine follows_popFrame.bind fun f g ⟨le, _⟩ => ?_
  rw [le.locals, le.function, le.localTy, le.name]
  cases f.locals.find? f.function.result with
  | none => exact Follows.fault trivial
  | some p =>
      refine Follows.bindExcept (f.failsIn_localTy _) fun place _ => ?_
      refine (Follows.typedLoad ⟨rfl, provenanceLe_refl _⟩).bind fun v w value => ?_
      refine (follows_deliver value le.result).bind fun _ _ _ => ?_
      refine (follows_freeLocals le _).bind fun _ _ _ => ?_
      exact (Follows.note _ _).bind fun _ _ _ => follows_resume

/-- Every terminator is followed by itself. -/
theorem follows_finish {t : Terminator} (h : t.In .castFree) :
    Follows anyhow (finish t) (finish t) := by
  cases t with
  | goto block => exact follows_jump block
  | ite condition onTrue onFalse =>
      refine (follows_evalValue condition h).bind ?_
      rintro ⟨v, _⟩ ⟨w, _⟩ ⟨le, _⟩
      cases v with
      | bool b =>
          obtain rfl := Value.bool_le_iff.1 le
          exact follows_jump _
      | _ => exact Follows.fault trivial
  | switch value cases fallback =>
      refine (follows_evalValue value h).bind ?_
      rintro ⟨v, _⟩ ⟨w, _⟩ ⟨le, _⟩
      cases v with
      | int k =>
          obtain rfl := Value.int_le_iff.1 le
          exact follows_jump _
      | _ => exact Follows.fault trivial
  | unreachable => exact Follows.fault trivial
  | call callee arguments result resultAbi next convention => exact follows_execCall h
  | ret => exact follows_execReturn
  | intrinsic op arguments result next => exact follows_execIntrinsic h

/-! ## Steps and runs -/

theorem follows_beginStep (f g : Frame) (block : String) :
    Follows anyhow (beginStep f block) (beginStep g block) := by
  refine Action.Simulates.bind (V := anyhow) ?_ fun _ _ _ => Follows.note _ _
  exact .modify fun m n ⟨le, code⟩ =>
    ⟨{ le with steps := congrArg (· + 1) le.steps }, code.program, code.frames⟩

/-- Every step is followed by a step. -/
theorem follows_step : Follows anyhow step step := by
  refine Action.Simulates.get.bind fun m n related => ?_
  rw [related.1.terminated]
  refine Follows.bindNeed trivial (Follows.frame.bind fun f g ⟨le, code⟩ => ?_)
  rw [le.currentBlock]
  refine Follows.bindExcept (failsIn_currentBlock f) fun (name, block) current => ?_
  have hblock := block_in code current
  refine (follows_beginStep f g name).bind fun _ _ _ => ?_
  rw [le.index]
  cases found : block.statements[f.index]? with
  | none => exact follows_finish hblock.terminator
  | some s =>
      have hs := hblock.statements s (List.mem_of_getElem? found)
      refine (follows_execute hs).bind fun _ _ _ => Follows.modifyFrame fun f g h => ⟨?_, h.2⟩
      exact { h.1 with index := congrArg (· + 1) h.1.index }

/-- A run that ends or panics is followed by one of as many steps that ends in the same way. -/
theorem exists_runFor {m' : Machine} {e : Fault} {limit : Nat} (related : Related m n)
    (run : runFor limit m = (e, m')) (ends : e.Ends) :
    ∃ n', runFor limit n = (e, n') ∧ Related m' n' := by
  induction limit generalizing m n with
  | zero =>
      obtain ⟨rfl, rfl⟩ := Prod.mk.inj run
      exact ends.elim
  | succ limit ih =>
      rcases made : step m with ⟨f | u, m₁⟩
      · rw [runFor_of_step_error made] at run
        obtain ⟨rfl, rfl⟩ := Prod.mk.inj run
        obtain ⟨n', made', related⟩ := follows_step.error related made ends
        exact ⟨n', runFor_of_step_error made', related⟩
      · rw [runFor_of_step_ok made] at run
        obtain ⟨_, n₁, made', -, related⟩ := follows_step.ok related made
        obtain ⟨n', run', related⟩ := ih related run
        exact ⟨n', (runFor_of_step_ok made').trans run', related⟩

/-- A run to the end, or to a panic, is followed by one that ends in the same way. -/
theorem exists_run {m' : Machine} {limit : Int} {result : Except Fault Unit} (related : Related m n)
    (ran : run limit m = (result, m'))
    (ends : result = .ok () ∨ ∃ cause, result = .error (.panicked cause)) :
    ∃ n', run limit n = (result, n') ∧ m'.Le n' := by
  rcases made : runFor (limit - m.steps).toNat m with ⟨e, k⟩
  by_cases terminated : e = .terminated
  · subst terminated
    obtain ⟨rfl, rfl⟩ := Prod.mk.inj ((run_of_terminated made).symm.trans ran)
    obtain ⟨k', made', le, -⟩ := exists_runFor related made trivial
    rw [← related.1.steps] at made'
    exact ⟨_, run_of_terminated made', { le with terminated := rfl }⟩
  · obtain ⟨rfl, rfl⟩ := Prod.mk.inj ((run_of_fault terminated made).symm.trans ran)
    obtain ⟨⟨⟩⟩ | ⟨cause, same⟩ := ends
    obtain rfl := Except.error.inj same
    obtain ⟨k', made', le, -⟩ := exists_runFor related made trivial
    rw [← related.1.steps] at made'
    exact ⟨_, run_of_fault terminated made', { le with }⟩

/-- Making memory more defined introduces no undefined behaviour, if no address is turned into a
pointer: a step that succeeds still does, with ordered results; a step that ends the program or
panics still does; and a run to the end, or to a panic, is still one, with the same number of steps
and the same output. -/
theorem refines_of_le (code : m.In .castFree) (le : m.Le n) :
    (∀ m', step m = (.ok (), m') → ∃ n', step n = (.ok (), n') ∧ m'.Le n' ∧ m'.In .castFree) ∧
    (∀ e m', step m = (.error e, m') → e.Ends → ∃ n', step n = (.error e, n') ∧ m'.Le n') ∧
    (∀ limit result m', run limit m = (result, m') →
      (result = .ok () ∨ ∃ cause, result = .error (.panicked cause)) →
      ∃ n', run limit n = (result, n') ∧ n'.steps = m'.steps ∧ n'.stdout = m'.stdout ∧
        n'.stderr = m'.stderr) := by
  have related : Related m n := ⟨le, code⟩
  refine ⟨fun m' made => ?_, fun e m' made ends => ?_, fun limit result m' ran ends => ?_⟩
  · obtain ⟨_, n', made', -, le, code⟩ := follows_step.ok related made
    exact ⟨n', made', le, code⟩
  · obtain ⟨n', made', le, -⟩ := follows_step.error related made ends
    exact ⟨n', made', le⟩
  · obtain ⟨n', ran', le⟩ := exists_run related ran ends
    exact ⟨n', ran', le.steps, le.stdout, le.stderr⟩

/-- A function that writes to a local. -/
def writeLocal : Function where
  locals := ⟨[("x", ⟨.int ⟨false, 1⟩, 1⟩), ("ret", ⟨.tuple [] 0, 1⟩)]⟩
  params := []
  result := "ret"
  resultAbi := { size := 0, align := 1 }
  start := "start"
  blocks := ⟨[("start",
    ⟨[.live "x", .assign (.var "x") (.constant (.int 7) (.int ⟨false, 1⟩))], .ret⟩)]⟩

/-- A machine that is about to write, where the local holds a byte already. -/
def aboutToWrite (byte : AbsByte) (exposed : List AllocId) : Machine where
  program := { functions := ⟨[("main", writeLocal)]⟩ }
  store :=
    { memory :=
        { target := ⟨8, .little⟩
          chooser := fun asked _ => .ok (asked.length + 1)
          allocations := [⟨⟨0⟩, [.uninit], 1, 1, .function, true⟩, ⟨⟨1⟩, [], 2, 1, .stack, true⟩,
            ⟨⟨2⟩, [byte], 3, 1, .stack, true⟩] }
      casts := { exposed } }
  functions := ⟨[("main", 1)]⟩
  stack :=
    [{ name := "main", function := writeLocal, block := some "start", index := 1
       locals := ⟨[("ret", ⟨2, some ⟨1⟩⟩), ("x", ⟨3, some ⟨2⟩⟩)]⟩ }]
  steps := 1

/-- It comes to its end if the byte is not initialised, and so it does if it is, and if more is
exposed. -/
theorem refines_aboutToWrite :
    (aboutToWrite .uninit []).In .castFree ∧
      (aboutToWrite .uninit []).Le (aboutToWrite (.init 5 none) [⟨2⟩]) ∧
      (run 10 (aboutToWrite .uninit [])).1 = .ok () ∧
      (run 10 (aboutToWrite (.init 5 none) [⟨2⟩])).1 = .ok () := by
  have castFree : writeLocal.In .castFree := by
    intro b hb
    obtain rfl := List.mem_singleton.1 hb
    refine ⟨fun s hs => ?_, trivial⟩
    rcases List.mem_pair.1 hs with rfl | rfl
    · trivial
    · exact ⟨trivial, nofun⟩
  have code : (aboutToWrite .uninit []).In .castFree := by
    refine ⟨fun e he => ?_, fun f hf => ?_⟩
    · obtain rfl := List.mem_singleton.1 he
      exact castFree
    · obtain rfl := List.mem_singleton.1 hf
      exact castFree
  have byte : Allocation.Le ⟨⟨2⟩, [.uninit], 3, 1, .stack, true⟩
      ⟨⟨2⟩, [.init 5 none], 3, 1, .stack, true⟩ := ⟨rfl, rfl, rfl, rfl, rfl, rfl⟩
  have memory : (aboutToWrite .uninit []).store.memory.Le
      (aboutToWrite (.init 5 none) [⟨2⟩]).store.memory :=
    ⟨rfl, rfl, rfl, .cons (.refl _) (.cons (.refl _) (.cons byte .nil))⟩
  have le : (aboutToWrite .uninit []).Le (aboutToWrite (.init 5 none) [⟨2⟩]) :=
    ⟨rfl, rfl, .cons (.refl _) .nil, memory, nofun, rfl, rfl, rfl, rfl⟩
  have ran : run 10 (aboutToWrite .uninit []) =
      (.ok (), (run 10 (aboutToWrite .uninit [])).2) := rfl
  obtain ⟨n', ran', -⟩ := (refines_of_le code le).2.2 10 _ _ ran (.inl rfl)
  exact ⟨code, le, congrArg Prod.fst ran, congrArg Prod.fst ran'⟩

end Machine

end AbstractMachine
