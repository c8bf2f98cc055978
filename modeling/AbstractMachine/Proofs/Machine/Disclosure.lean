/-
# AbstractMachine.Proofs.Machine.Disclosure — what is cast is exposed

A name that a step exposes was exposed on the way, by a cast or by the intrinsic for it. Here is the
converse: if a step that succeeds comes to such a cast, the name is exposed when the step is done.
For the cast itself has succeeded then, and whatever comes after it hides nothing.

`Discloses` is the counterpart of `Exposing`, and is followed along the text of an instruction in
the same way. Together they say what is exposed after a step, neither more nor less.
-/
import AbstractMachine.Proofs.Machine.Calls
import AbstractMachine.Proofs.Machine.Exposure

namespace AbstractMachine

namespace Machine

variable {id : AllocId} {α β : Type} {m m' : Machine}

/-! ## Following a name -/

/-- If an action succeeds, and a name was exposed before it or there is a cause for it to be, then
it is exposed afterwards. -/
def Discloses (id : AllocId) (x : Action Machine α) (cause : Machine → Prop) : Prop :=
  ∀ ⦃m a m'⦄, m.store.memory.Numbered → x m = (.ok a, m') →
    m'.store.memory.Numbered ∧
      (id ∈ m.store.casts.exposed ∨ cause m → id ∈ m'.store.casts.exposed)

/-- An action that hides nothing. -/
abbrev Retains (id : AllocId) (x : Action Machine α) : Prop :=
  Discloses id x fun _ => False

/-- What is known of the stack tells that an action hides nothing. -/
theorem Turns.retains {x : Action Machine α} {after : α → List Frame → Prop} {a : α}
    (h : Turns m m.stack.length m.stack x after) (numbered : m.store.memory.Numbered)
    (run : x m = (.ok a, m')) : m'.store.memory.Numbered ∧
      (id ∈ m.store.casts.exposed ∨ False → id ∈ m'.store.casts.exposed) := by
  obtain ⟨_, -, stands⟩ := h.ok (.refl numbered) run
  exact ⟨stands.numbered, Or.rec (stands.exposed id) False.elim⟩

namespace Discloses

variable {x : Action Machine α} {f : α → Action Machine β} {cause cause' : Machine → Prop}
  {later : α → Machine → Prop}

theorem mono (h : Discloses id x cause) (sub : ∀ m, cause' m → cause m) :
    Discloses id x cause' := by
  intro m a m' numbered run
  obtain ⟨after, exposed⟩ := h numbered run
  exact ⟨after, fun before => exposed (before.imp_right (sub m))⟩

/-- What leaves no cause is retained. -/
theorem of_retains (h : Retains id x) (none : ∀ m, ¬cause m) : Discloses id x cause :=
  h.mono none

/-- The cause lies in the first action, or else in the second one, wherever that begins. -/
theorem bind (hx : Discloses id x cause) (hf : ∀ a, Discloses id (f a) (later a))
    (sub : ∀ m, cause' m → cause m ∨ ∀ a m', x m = (.ok a, m') → later a m') :
    Discloses id (x >>= f) cause' := by
  intro m b m' numbered run
  obtain ⟨a, n, first, second⟩ := Action.bind_eq_ok_iff.1 run
  obtain ⟨mid, exposed⟩ := hx numbered first
  obtain ⟨after, exposed'⟩ := hf a mid second
  refine ⟨after, fun before => exposed' ?_⟩
  rcases before with old | new
  · exact .inl (exposed (.inl old))
  · rcases sub m new with new | new
    · exact .inl (exposed (.inr new))
    · exact .inr (new a n first)

/-- The cause lies in the first action. -/
theorem seq (hx : Discloses id x cause) (hf : ∀ a, Retains id (f a)) :
    Discloses id (x >>= f) cause :=
  bind hx hf fun _ => .inl

theorem pure {a : α} : Retains id (Pure.pure a : Action Machine α) := by
  intro m b m' numbered run
  obtain ⟨-, rfl⟩ := Action.pure_eq_ok_iff.1 run
  exact ⟨numbered, Or.rec (fun h => h) False.elim⟩

theorem throw {e : Fault} : Discloses id (MonadExcept.throw e : Action Machine α) cause :=
  fun _ _ _ _ run => nomatch run

/-- The first action only looks something up. -/
theorem check {e : Except Fault α} (hf : ∀ a, e = .ok a → Discloses id (f a) cause) :
    Discloses id (Action.ofExcept e >>= f) cause := by
  intro m b m' numbered run
  obtain ⟨a, n, first, second⟩ := Action.bind_eq_ok_iff.1 run
  obtain ⟨known, rfl⟩ := Action.ofExcept_eq_iff.1 first
  exact hf a known numbered second

theorem withTarget {f : Target → Action Machine β} (hf : ∀ t, Discloses id (f t) cause) :
    Discloses id (Machine.getTarget >>= f) cause :=
  fun m _ _ numbered run => hf m.target numbered run

/-- Evaluating hides nothing. -/
theorem evaluates {U : α → Prop} (h : ∀ m : Machine, m.store.memory.Numbered →
    Evaluates (fun _ => True) m x U) : Retains id x := by
  intro m a m' numbered run
  obtain ⟨evolved, -⟩ := (h m numbered).ok (.refl fun _ _ => trivial) run
  exact ⟨evolved.numbered numbered, Or.rec (evolved.exposed id) False.elim⟩

theorem turns {after : Machine → α → List Frame → Prop}
    (h : ∀ m : Machine, Turns m m.stack.length m.stack x (after m)) : Retains id x :=
  fun m _ _ numbered run => (h m).retains numbered run

/-- An action that asks for the innermost frame first does nothing without one. -/
theorem withFrame {k : Frame → Action Machine α}
    {after : Machine → Frame → List Frame → α → List Frame → Prop}
    (h : ∀ m depth f rest, Turns m depth (f :: rest) (frame >>= k) (after m f rest)) :
    Retains id (frame >>= k) := by
  intro m a m' numbered run
  obtain ⟨f, _, top, -⟩ := Action.bind_eq_ok_iff.1 run
  obtain ⟨-, rest, stack⟩ := frame_eq_ok_iff.1 top
  have turns := h m m.stack.length f rest
  rw [← stack] at turns
  exact turns.retains numbered run

theorem load {p : Pointer} {size align : Int} : Retains id (onStore (Store.load p size align)) :=
  .evaluates fun _ _ => Evaluates.ask (V := fun _ => True) (fun _ _ _ _ => trivial)
    fun _ => Memory.failsIn_load fun _ _ => trivial

theorem typedLoad {p : Pointer} {place : PlaceTy} :
    Retains id (onStore (Store.typedLoad p place)) :=
  .evaluates fun _ _ => evaluates_typedLoad fun _ _ => trivial

theorem typedStore {p : Pointer} {place : PlaceTy} {v : Value} :
    Retains id (onStore (Store.typedStore p v place)) :=
  .evaluates fun _ numbered => evaluates_typedStore numbered (fun _ _ => trivial) fun _ _ => trivial

theorem deinit {p : Pointer} {place : PlaceTy} : Retains id (onStore (Store.deinit p place)) :=
  .evaluates fun _ numbered => evaluates_deinit numbered fun _ _ => trivial

theorem offsetInBounds {p : Pointer} {offset : Int} :
    Retains id (Machine.offsetInBounds p offset) :=
  .evaluates fun _ _ => Evaluates.offsetInBounds fun _ _ => trivial

/-- To expose a pointer is to expose the name that it carries. -/
theorem expose (p : Pointer) :
    Discloses id (onStore (Store.expose p)) fun _ => p.provenance = some id := by
  intro m addr m' numbered run
  obtain ⟨journal, done⟩ := onStore_expose p m
  obtain ⟨-, rfl⟩ := Prod.mk.inj (done.symm.trans run)
  exact ⟨numbered, Casts.mem_exposed_expose.2⟩

end Discloses

/-! ## Expressions -/

section Expressions

theorem retains_evalValue (e : ValueExpr) : Retains id (evalValue e) :=
  .evaluates fun _ numbered => evaluates_evalValue numbered (fun _ _ => trivial)
    (fun _ _ _ _ _ => trivial) e e.in_full

theorem retains_evalPlace (p : PlaceExpr) : Retains id (evalPlace p) :=
  .evaluates fun _ numbered => evaluates_evalPlace numbered (fun _ _ => trivial)
    (fun _ _ _ _ _ => trivial) p p.in_full

/-- A cast to an address exposes what its operand carries. -/
theorem discloses_evalUnary (op : UnaryOp) (v : Value) (ty : Ty) :
    Discloses id (evalUnary op v ty) fun _ =>
      op = .expose ∧ ∃ p, v = .ptr p ∧ p.provenance = some id := by
  have other (h : op ≠ .expose) : Discloses id (evalUnary op v ty) fun _ =>
      op = .expose ∧ ∃ p, v = .ptr p ∧ p.provenance = some id := by
    have retains : Retains id (evalUnary op v ty) :=
      .evaluates fun m _ => evaluates_evalUnary op fun _ _ => trivial
    exact .of_retains retains fun _ cause => h cause.1
  cases op with
  | expose =>
      cases v with
      | ptr p =>
          refine .seq ((Discloses.expose p).mono ?_) fun _ => .withTarget fun _ => .pure
          rintro m ⟨-, _, ⟨⟩, carries⟩
          exact carries
      | _ => exact .throw
  | _ => exact other nofun

mutual

/-- The casts on the way of an expression expose what they are made of. -/
theorem discloses_evalValue : ∀ e : ValueExpr,
    Discloses id (evalValue e) fun m => Casting id fun g n => ValueComesTo g n e m
  | .constant v ty => .of_retains (retains_evalValue _) fun _ ⟨_, _, _, _, _, comes, _⟩ =>
      nomatch comes
  | .function name => .of_retains (retains_evalValue _) fun _ ⟨_, _, _, _, _, comes, _⟩ =>
      nomatch comes
  | .tuple parts ty => by
      rw [evalValue]
      refine .check fun _ _ => .seq ((discloses_evalAll parts).mono ?_) fun _ => .pure
      rintro m ⟨e, p, t, n, n', comes, cast⟩
      cases comes with
      | tuple _ h => exact ⟨e, p, t, n, n', h, cast⟩
  | .union field operand ty => by
      rw [evalValue]
      refine .seq ((discloses_evalValue operand).mono ?_) fun ⟨v, _⟩ =>
        .withTarget fun _ => .check fun _ _ => .pure
      rintro m ⟨e, p, t, n, n', comes, cast⟩
      cases comes with
      | union h => exact ⟨e, p, t, n, n', h, cast⟩
  | .variant d payload ty => by
      rw [evalValue]
      refine .seq ((discloses_evalValue payload).mono ?_) fun ⟨v, _⟩ => .check fun _ _ => .pure
      rintro m ⟨e, p, t, n, n', comes, cast⟩
      cases comes with
      | variant h => exact ⟨e, p, t, n, n', h, cast⟩
  | .discriminant place => by
      rw [evalValue]
      refine .seq ((discloses_evalPlace place).mono ?_) ?_
      · rintro m ⟨e, p, t, n, n', comes, cast⟩
        cases comes with
        | discriminant h => exact ⟨e, p, t, n, n', h, cast⟩
      · rintro ⟨p, ⟨ty, align⟩⟩
        cases ty with
        | enum e =>
            refine .seq .load fun data => .withTarget fun target => ?_
            cases e.discriminator.decode target data with
            | none => exact .throw
            | some d => exact .pure
        | _ => exact .throw
  | .load place destructive => by
      rw [evalValue]
      refine .seq ((discloses_evalPlace place).mono ?_) ?_
      · rintro m ⟨e, p, t, n, n', comes, cast⟩
        cases comes with
        | load h => exact ⟨e, p, t, n, n', h, cast⟩
      · rintro ⟨p, place⟩
        refine .seq .typedLoad fun v => ?_
        cases destructive with
        | false => exact .pure
        | true => exact .seq .deinit fun _ => .pure
  | .addrOf place ty => by
      rw [evalValue]
      refine .seq ((discloses_evalPlace place).mono ?_) fun ⟨p, _⟩ => .pure
      rintro m ⟨e, p, t, n, n', comes, cast⟩
      cases comes with
      | addrOf h => exact ⟨e, p, t, n, n', h, cast⟩
  | .createRef place ty => by
      rw [evalValue]
      refine .seq ((discloses_evalPlace place).mono ?_) fun ⟨p, _⟩ =>
        .withTarget fun _ => .check fun _ _ => .check fun _ _ => .pure
      rintro m ⟨e, p, t, n, n', comes, cast⟩
      cases comes with
      | createRef h => exact ⟨e, p, t, n, n', h, cast⟩
  | .unary op operand => by
      rw [evalValue]
      have operator (a : Value × Ty) : Discloses id (evalUnary op a.1 a.2) fun _ =>
          op = .expose ∧ ∃ p, a.1 = .ptr p ∧ p.provenance = some id :=
        discloses_evalUnary op a.1 a.2
      refine .bind (discloses_evalValue operand) operator ?_
      rintro m ⟨e, p, t, n, n', comes, pointer, carries⟩
      cases comes with
      | unary h => exact .inl ⟨e, p, t, n, n', h, pointer, carries⟩
      | here =>
          -- This is the cast, and the operand evaluates to what it does.
          refine .inr fun a m' evaluated => ⟨rfl, p, ?_, carries⟩
          rw [pointer] at evaluated
          cases evaluated
          rfl
  | .binary op left right => by
      rw [evalValue]
      have operator (l r : Value × Ty) : Retains id (evalBinary op l.1 l.2 r.1 r.2) :=
        .evaluates fun m _ => evaluates_evalBinary op fun _ _ => trivial
      refine .bind (discloses_evalValue left)
        (fun l => .seq (discloses_evalValue right) (operator l)) ?_
      rintro m ⟨e, p, t, n, n', comes, cast⟩
      cases comes with
      | left h => exact .inl ⟨e, p, t, n, n', h, cast⟩
      | right first h =>
          refine .inr fun a m' evaluated => ?_
          rw [first] at evaluated
          cases evaluated
          exact ⟨e, p, t, n, n', h, cast⟩

theorem discloses_evalPlace : ∀ p : PlaceExpr,
    Discloses id (evalPlace p) fun m => Casting id fun g n => PlaceComesTo g n p m
  | .var name => .of_retains (retains_evalPlace _) fun _ ⟨_, _, _, _, _, comes, _⟩ => nomatch comes
  | .deref operand place => by
      rw [evalPlace]
      refine .seq ((discloses_evalValue operand).mono ?_) ?_
      · rintro m ⟨e, p, t, n, n', comes, cast⟩
        cases comes with
        | deref h => exact ⟨e, p, t, n, n', h, cast⟩
      · rintro ⟨v, _⟩
        cases v with
        | ptr p => exact .pure
        | _ => exact .throw
  | .field root i => by
      rw [evalPlace]
      refine .seq ((discloses_evalPlace root).mono ?_) fun _ =>
        .check fun _ _ => .seq .offsetInBounds fun _ => .pure
      rintro m ⟨e, p, t, n, n', comes, cast⟩
      cases comes with
      | field h => exact ⟨e, p, t, n, n', h, cast⟩
  | .index root i => by
      rw [evalPlace]
      refine .bind (discloses_evalPlace root) (fun _ => .seq (discloses_evalValue i) fun _ =>
        .withTarget fun _ => .check fun _ _ => .seq .offsetInBounds fun _ => .pure) ?_
      rintro m ⟨e, p, t, n, n', comes, cast⟩
      cases comes with
      | root h => exact .inl ⟨e, p, t, n, n', h, cast⟩
      | index first h =>
          refine .inr fun a m' evaluated => ?_
          rw [first] at evaluated
          cases evaluated
          exact ⟨e, p, t, n, n', h, cast⟩
  | .downcast root d => by
      rw [evalPlace]
      refine .seq ((discloses_evalPlace root).mono ?_) ?_
      · rintro m ⟨e, p, t, n, n', comes, cast⟩
        cases comes with
        | downcast h => exact ⟨e, p, t, n, n', h, cast⟩
      · rintro ⟨p, ⟨ty, align⟩⟩
        cases ty with
        | enum e => exact .check fun _ _ => .pure
        | _ => exact .throw

theorem discloses_evalAll : ∀ es : List ValueExpr,
    Discloses id (evalAll es) fun m => Casting id fun g n => ValuesComeTo g n es m
  | [] => .of_retains .pure fun _ ⟨_, _, _, _, _, comes, _⟩ => nomatch comes
  | e :: es => by
      rw [evalAll]
      refine .bind (discloses_evalValue e) (fun _ => .seq (discloses_evalAll es) fun _ => .pure) ?_
      rintro m ⟨g, p, t, n, n', comes, cast⟩
      cases comes with
      | head h => exact .inl ⟨g, p, t, n, n', h, cast⟩
      | tail first h =>
          refine .inr fun a m' evaluated => ?_
          rw [first] at evaluated
          cases evaluated
          exact ⟨g, p, t, n, n', h, cast⟩

end

end Expressions

/-! ## Statements -/

theorem retains_storeTag (p : Pointer) (align : Int) (writes : List TagWrite) :
    Retains id (storeTag p align writes) :=
  .turns fun _ => idles_storeTag p align writes

/-- The casts on the way of a statement expose what they are made of. -/
theorem discloses_execute (s : Statement) :
    Discloses id (execute s) fun m => Casting id fun g n => StatementComesTo g n s m := by
  cases s with
  | assign destination source =>
      refine .bind (discloses_evalValue source)
        (fun _ => .seq (discloses_evalPlace destination) fun _ => .typedStore) ?_
      rintro m ⟨e, p, t, n, n', comes, cast⟩
      cases comes with
      | source h => exact .inl ⟨e, p, t, n, n', h, cast⟩
      | destination first h =>
          refine .inr fun a m' evaluated => ?_
          rw [first] at evaluated
          cases evaluated
          exact ⟨e, p, t, n, n', h, cast⟩
  | finalize place =>
      refine .seq ((discloses_evalPlace place).mono ?_) fun _ => .seq .typedLoad fun _ => .pure
      rintro m ⟨e, p, t, n, n', comes, cast⟩
      cases comes with
      | finalize h => exact ⟨e, p, t, n, n', h, cast⟩
  | live name =>
      refine .of_retains (.withFrame fun _ _ f rest => turns_execute (.live name)) ?_
      exact fun _ ⟨_, _, _, _, _, comes, _⟩ => nomatch comes
  | dead name =>
      refine .of_retains (.withFrame fun _ _ f rest => turns_execute (.dead name)) ?_
      exact fun _ ⟨_, _, _, _, _, comes, _⟩ => nomatch comes
  | setDiscriminant place d =>
      refine .seq ((discloses_evalPlace place).mono ?_) ?_
      · rintro m ⟨e, p, t, n, n', comes, cast⟩
        cases comes with
        | setDiscriminant h => exact ⟨e, p, t, n, n', h, cast⟩
      · rintro ⟨p, ⟨ty, align⟩⟩
        cases ty with
        | enum e => exact .check fun variant _ => retains_storeTag p align variant.tagger
        | _ => exact .throw
  | deinit place =>
      refine .seq ((discloses_evalPlace place).mono ?_) fun _ => .deinit
      rintro m ⟨e, p, t, n, n', comes, cast⟩
      cases comes with
      | deinit h => exact ⟨e, p, t, n, n', h, cast⟩
  | validate place =>
      refine .seq ((discloses_evalPlace place).mono ?_) fun _ => .seq .typedLoad fun _ =>
        .seq (.turns fun _ => .ask) fun _ => .typedStore
      rintro m ⟨e, p, t, n, n', comes, cast⟩
      cases comes with
      | validate h => exact ⟨e, p, t, n, n', h, cast⟩
  | mention place =>
      refine .seq ((discloses_evalPlace place).mono ?_) fun _ => .pure
      rintro m ⟨e, p, t, n, n', comes, cast⟩
      cases comes with
      | mention h => exact ⟨e, p, t, n, n', h, cast⟩

/-! ## Terminators -/

theorem retains_jump (block : String) : Retains id (jump block) :=
  .withFrame fun _ _ _ _ => turns_jump block

theorem retains_beginLocal (f : Frame) (name : String) : Retains id (beginLocal f name) :=
  .turns fun _ => turns_beginLocal f name

/-- The casts on the way of arguments expose what they are made of. -/
theorem discloses_passArguments : ∀ (arguments : List (ValueExpr × ArgAbi))
    (params : List (String × ArgAbi)) (callee : Frame),
    Discloses id (passArguments arguments params callee) fun m =>
      Casting id fun g n => ArgumentsComeTo g n arguments params callee m
  | a :: arguments, param :: params, callee => by
      have first : Discloses id (passArguments [a] [param] callee) fun m =>
          Casting id fun g n => ValueComesTo g n a.1 m := by
        obtain ⟨e, given⟩ := a
        obtain ⟨name, expected⟩ := param
        rw [passArguments]
        refine .seq (discloses_evalValue e) fun _ => .check fun _ _ => .check fun _ _ => ?_
        refine .withTarget fun _ => .check fun _ _ => .seq (retains_beginLocal callee name) ?_
        exact fun _ => .seq .typedStore fun _ => .turns fun _ => turns_passArguments [] [] _
      rw [passArguments_cons]
      refine .bind first (fun f => discloses_passArguments arguments params f) ?_
      rintro m ⟨e, p, t, n, n', comes, cast⟩
      cases comes with
      | head h => exact .inl ⟨e, p, t, n, n', h, cast⟩
      | tail first h =>
          refine .inr fun a m' evaluated => ?_
          rw [first] at evaluated
          cases evaluated
          exact ⟨e, p, t, n, n', h, cast⟩
  | [], params, callee => by
      rw [passArguments_nil]
      refine .of_retains .pure ?_
      rintro m ⟨_, _, _, _, _, comes, -⟩
      cases comes
  | a :: arguments, [], callee => by
      rw [passArguments_of_no_params]
      refine .of_retains .pure ?_
      rintro m ⟨_, _, _, _, _, comes, -⟩
      cases comes

/-- The casts on the way of a call expose what they are made of. -/
theorem discloses_execCall (callee : ValueExpr) (arguments : List (ValueExpr × ArgAbi))
    (result : PlaceExpr) (resultAbi : ArgAbi) (next : Option String)
    (convention : CallingConvention) :
    Discloses id (execCall callee arguments result resultAbi next convention) fun m =>
      Casting id fun g n =>
        TerminatorComesTo g n (.call callee arguments result resultAbi next convention) m := by
  have callees : Discloses id (evalValue callee) _ := discloses_evalValue callee
  have results : Discloses id (evalPlace result) _ := discloses_evalPlace result
  intro m u m' numbered run
  obtain ⟨c⟩ := exists_course run
  have passing : Discloses id (passArguments arguments _ _) _ := discloses_passArguments arguments
    c.readied.function.params { c.readied with result := some c.awaiting }
  have beginning : Retains id (beginLocal c.fresh c.fresh.function.result) :=
    retains_beginLocal c.fresh c.fresh.function.result
  obtain ⟨numbered, evaluated⟩ := callees numbered c.calls
  obtain ⟨numbered, begun⟩ := beginning numbered c.begins
  obtain ⟨numbered, found⟩ := results numbered c.finds
  obtain ⟨numbered, passed⟩ := passing numbered c.passes
  obtain ⟨journal, after⟩ := c.after
  rw [after]
  refine ⟨numbered, fun before => passed ?_⟩
  -- What the casts are found in are the machines of the course.
  rcases before with old | ⟨e, p, t, n, n', comes, cast⟩
  · exact .inl (found (.inl (begun (.inl (evaluated (.inl old))))))
  cases comes with
  | callee h =>
      exact .inl (found (.inl (begun (.inl (evaluated (.inr ⟨e, p, t, n, n', h, cast⟩))))))
  | result called named framed begun h =>
      cases called.symm.trans c.calls
      cases named.symm.trans c.named
      cases framed.symm.trans c.frames
      cases begun.symm.trans c.begins
      exact .inl (found (.inr ⟨e, p, t, n, n', h, cast⟩))
  | arguments called named framed begun awaiting h =>
      cases called.symm.trans c.calls
      cases named.symm.trans c.named
      cases framed.symm.trans c.frames
      cases begun.symm.trans c.begins
      cases awaiting.symm.trans c.finds
      exact .inr ⟨e, p, t, n, n', h, cast⟩

/-- The intrinsic that exposes provenance exposes that of its argument. -/
theorem discloses_performIntrinsic (op : IntrinsicOp) (arguments : List (Value × Ty)) :
    Discloses id (performIntrinsic op arguments) fun _ => op = .exposeProvenance ∧
      ∃ p ty, arguments = [(.ptr p, ty)] ∧ p.provenance = some id := by
  have retains : Retains id (performIntrinsic op arguments) :=
    .turns fun _ => idles_performIntrinsic op arguments
  by_cases cause : op = .exposeProvenance ∧
      ∃ p ty, arguments = [(.ptr p, ty)] ∧ p.provenance = some id
  · obtain ⟨rfl, p, ty, rfl, carries⟩ := cause
    refine .check fun q known => ?_
    have same : q = p := by
      cases ty with
      | ptr t => exact (Except.ok.inj known).symm
      | _ => cases known
    subst same
    exact .seq ((Discloses.expose q).mono fun _ _ => carries) fun _ => .withTarget fun _ => .pure
  · exact .of_retains retains fun _ => cause

theorem discloses_evalResult (result : Option PlaceExpr) :
    Discloses id (evalResult result) fun m =>
      ∃ place, result = some place ∧ Casting id fun g n => PlaceComesTo g n place m := by
  cases result with
  | none => exact .of_retains .pure fun _ ⟨_, wanted, _⟩ => nomatch wanted
  | some place =>
      refine .seq ((discloses_evalPlace place).mono ?_) fun _ => .pure
      rintro m ⟨_, ⟨⟩, casting⟩
      exact casting

/-- The casts on the way of an intrinsic expose what they are made of, and so does the intrinsic for
it. -/
theorem discloses_execIntrinsic (op : IntrinsicOp) (arguments : List ValueExpr)
    (result : Option PlaceExpr) (next : Option String) :
    Discloses id (execIntrinsic op arguments result next) fun m =>
      Casting id (fun g n => TerminatorComesTo g n (.intrinsic op arguments result next) m) ∨
        op = .exposeProvenance ∧ ∃ p ty n, evalAll arguments m = (.ok [(.ptr p, ty)], n) ∧
          p.provenance = some id := by
  refine .bind (discloses_evalAll arguments) (fun vs => .bind (discloses_evalResult result)
    (fun place => .seq (discloses_performIntrinsic op vs) ?_) fun m cause => cause) ?_
  · rintro ⟨v, ty⟩
    refine .seq ?_ fun _ => ?_
    · cases place with
      | none => exact .pure
      | some r => exact .check fun _ _ => .typedStore
    · cases next with
      | none => exact .throw
      | some block => exact retains_jump block
  rintro m (⟨e, p, t, n, n', comes, cast⟩ | ⟨rfl, p, ty, n, evaluated, carries⟩)
  · cases comes with
    | intrinsic h => exact .inl ⟨e, p, t, n, n', h, cast⟩
    | intrinsicResult first h =>
        refine .inr fun a m' evaluated => .inl ?_
        rw [first] at evaluated
        cases evaluated
        exact ⟨_, rfl, e, p, t, n, n', h, cast⟩
  · refine .inr fun a m' evaluated' => .inr fun _ _ _ => ?_
    rw [evaluated] at evaluated'
    cases evaluated'
    exact ⟨rfl, p, ty, rfl, carries⟩

theorem retains_execReturn : Retains id execReturn := by
  intro m u m' numbered run
  obtain ⟨f, n, popped, -⟩ := Action.bind_eq_ok_iff.1 run
  have turns := @turns_execReturn _ f n.stack m rfl
  rw [← (popFrame_eq_ok_iff.1 popped).1] at turns
  exact turns.retains numbered run

/-- The casts on the way of a terminator expose what they are made of, and so does the intrinsic for
it. -/
theorem discloses_finish (t : Terminator) :
    Discloses id (finish t) fun m => Casting id (fun g n => TerminatorComesTo g n t m) ∨
      ∃ arguments result next p ty n, t = .intrinsic .exposeProvenance arguments result next ∧
        evalAll arguments m = (.ok [(.ptr p, ty)], n) ∧ p.provenance = some id := by
  cases t with
  | goto block =>
      refine .of_retains (retains_jump block) ?_
      rintro m (⟨_, _, _, _, _, ⟨⟩, _⟩ | ⟨_, _, _, _, _, _, ⟨⟩, _⟩)
  | ite condition onTrue onFalse =>
      refine .seq ((discloses_evalValue condition).mono ?_) ?_
      · rintro m (⟨e, p, t, n, n', comes, cast⟩ | ⟨_, _, _, _, _, _, ⟨⟩, _⟩)
        cases comes with
        | ite h => exact ⟨e, p, t, n, n', h, cast⟩
      · rintro ⟨v, _⟩
        cases v with
        | bool b => exact retains_jump _
        | _ => exact .throw
  | switch value cases_ fallback =>
      refine .seq ((discloses_evalValue value).mono ?_) ?_
      · rintro m (⟨e, p, t, n, n', comes, cast⟩ | ⟨_, _, _, _, _, _, ⟨⟩, _⟩)
        cases comes with
        | switch h => exact ⟨e, p, t, n, n', h, cast⟩
      · rintro ⟨v, _⟩
        cases v with
        | int n => exact retains_jump _
        | _ => exact .throw
  | unreachable => exact .throw
  | call callee arguments result resultAbi next convention =>
      refine (discloses_execCall callee arguments result resultAbi next convention).mono ?_
      rintro m (casting | ⟨_, _, _, _, _, _, ⟨⟩, _⟩)
      exact casting
  | ret =>
      refine .of_retains retains_execReturn ?_
      rintro m (⟨_, _, _, _, _, ⟨⟩, _⟩ | ⟨_, _, _, _, _, _, ⟨⟩, _⟩)
  | intrinsic op arguments result next =>
      refine (discloses_execIntrinsic op arguments result next).mono fun m => .imp_right ?_
      rintro ⟨_, _, _, p, ty, n, ⟨⟩, evaluated, carries⟩
      exact ⟨rfl, p, ty, n, evaluated, carries⟩

/-! ## Steps -/

/-- A step exposes the names that it comes to expose, and no others. -/
theorem mem_exposed_of_step_iff (numbered : m.store.memory.Numbered)
    (run : step m = (.ok (), m')) :
    id ∈ m'.store.casts.exposed ↔ id ∈ m.store.casts.exposed ∨ m.Exposes id := by
  refine ⟨exposes_of_step run, fun before => ?_⟩
  obtain ⟨f, name, block, executes⟩ := exists_executes run
  obtain ⟨rest, stack⟩ := executes.top
  rcases before with old | exposes
  · exact (turn_of_step numbered executes stack run).2.exposed id old
  rw [step_of_executes executes, instruction] at run
  have numbered : (m.begun f name).store.memory.Numbered := numbered
  -- A machine executes one instruction.
  have same {f' name' block'} (other : m.Executes f' name' block') :
      f' = f ∧ name' = name ∧ block' = block := by
    obtain ⟨rest', stack'⟩ := other.top
    obtain ⟨rfl, -⟩ := List.cons.inj (stack'.symm.trans stack)
    obtain ⟨rfl, rfl⟩ := Prod.mk.inj (Except.ok.inj (other.current.symm.trans executes.current))
    exact ⟨rfl, rfl, rfl⟩
  cases exposes with
  | statement other next casting =>
      obtain ⟨rfl, rfl, rfl⟩ := same other
      rw [next] at run
      obtain ⟨_, n, executed, moved⟩ := Action.bind_eq_ok_iff.1 run
      have exposed := (discloses_execute _ numbered executed).2 (.inr casting)
      cases moved
      exact exposed
  | terminator other last casting =>
      obtain ⟨rfl, rfl, rfl⟩ := same other
      rw [last] at run
      exact (discloses_finish _ numbered run).2 (.inr (.inl casting))
  | intrinsic other last terminator argument carries =>
      obtain ⟨rfl, rfl, rfl⟩ := same other
      rw [last] at run
      exact (discloses_finish _ numbered run).2
        (.inr (.inr ⟨_, _, _, _, _, _, terminator, argument, carries⟩))

end Machine

end AbstractMachine
