/-
# AbstractMachine.Proofs.Machine.Exposure — how a name comes to be exposed

Names are exposed in two ways: by the operator that turns a pointer into its address, and by the
intrinsic that does the same. What an instruction evaluates on its way is written down here as a
relation, `ComesTo`, along the order of evaluation: an operand on the right is evaluated in the
machine that the left one leaves behind. A step `Exposes` a name if it comes to evaluate the operator
on a pointer that carries the name, or if it is the intrinsic on such a pointer.

`Exposing` follows a name through an action: if the name is exposed afterwards it was before, or the
action did it. Most actions never do, and the two that do are found by following the text of the
instruction.
-/
import AbstractMachine.Proofs.Machine.Operations

namespace AbstractMachine

namespace Machine

/-! ## What is evaluated on the way -/

mutual

/-- In evaluating a value expression from the last machine, the first one is evaluated from the
first machine. -/
inductive ValueComesTo (g : ValueExpr) (n : Machine) : ValueExpr → Machine → Prop
  | here : ValueComesTo g n g n
  | tuple {parts ty m} (isTuple : ty.requireTuple = .ok ()) (h : ValuesComeTo g n parts m) :
      ValueComesTo g n (.tuple parts ty) m
  | union {field operand ty m} (h : ValueComesTo g n operand m) :
      ValueComesTo g n (.union field operand ty) m
  | variant {d payload ty m} (h : ValueComesTo g n payload m) :
      ValueComesTo g n (.variant d payload ty) m
  | discriminant {place m} (h : PlaceComesTo g n place m) :
      ValueComesTo g n (.discriminant place) m
  | load {place destructive m} (h : PlaceComesTo g n place m) :
      ValueComesTo g n (.load place destructive) m
  | addrOf {place ty m} (h : PlaceComesTo g n place m) : ValueComesTo g n (.addrOf place ty) m
  | createRef {place ty m} (h : PlaceComesTo g n place m) :
      ValueComesTo g n (.createRef place ty) m
  | unary {op operand m} (h : ValueComesTo g n operand m) : ValueComesTo g n (.unary op operand) m
  | left {op left right m} (h : ValueComesTo g n left m) :
      ValueComesTo g n (.binary op left right) m
  | right {op left right m a m'} (first : evalValue left m = (.ok a, m'))
      (h : ValueComesTo g n right m') : ValueComesTo g n (.binary op left right) m

/-- In finding a place from the last machine, a value expression is evaluated from the first one. -/
inductive PlaceComesTo (g : ValueExpr) (n : Machine) : PlaceExpr → Machine → Prop
  | deref {operand place m} (h : ValueComesTo g n operand m) :
      PlaceComesTo g n (.deref operand place) m
  | field {root i m} (h : PlaceComesTo g n root m) : PlaceComesTo g n (.field root i) m
  | root {root i m} (h : PlaceComesTo g n root m) : PlaceComesTo g n (.index root i) m
  | index {root i m a m'} (first : evalPlace root m = (.ok a, m')) (h : ValueComesTo g n i m') :
      PlaceComesTo g n (.index root i) m
  | downcast {root d m} (h : PlaceComesTo g n root m) : PlaceComesTo g n (.downcast root d) m

/-- In evaluating expressions one after the other, a value expression is evaluated. -/
inductive ValuesComeTo (g : ValueExpr) (n : Machine) : List ValueExpr → Machine → Prop
  | head {e es m} (h : ValueComesTo g n e m) : ValuesComeTo g n (e :: es) m
  | tail {e es m a m'} (first : evalValue e m = (.ok a, m')) (h : ValuesComeTo g n es m') :
      ValuesComeTo g n (e :: es) m

end

/-- In executing a statement, a value expression is evaluated. -/
inductive StatementComesTo (g : ValueExpr) (n : Machine) : Statement → Machine → Prop
  | source {destination source m} (h : ValueComesTo g n source m) :
      StatementComesTo g n (.assign destination source) m
  | destination {destination source m a m'} (first : evalValue source m = (.ok a, m'))
      (h : PlaceComesTo g n destination m') : StatementComesTo g n (.assign destination source) m
  | finalize {place m} (h : PlaceComesTo g n place m) : StatementComesTo g n (.finalize place) m
  | setDiscriminant {place d m} (h : PlaceComesTo g n place m) :
      StatementComesTo g n (.setDiscriminant place d) m
  | deinit {place m} (h : PlaceComesTo g n place m) : StatementComesTo g n (.deinit place) m
  | validate {place m} (h : PlaceComesTo g n place m) : StatementComesTo g n (.validate place) m
  | mention {place m} (h : PlaceComesTo g n place m) : StatementComesTo g n (.mention place) m

/-- In passing the arguments of a call, a value expression is evaluated. -/
inductive ArgumentsComeTo (g : ValueExpr) (n : Machine) :
    List (ValueExpr × ArgAbi) → List (String × ArgAbi) → Frame → Machine → Prop
  | head {a arguments param params callee m} (h : ValueComesTo g n a.1 m) :
      ArgumentsComeTo g n (a :: arguments) (param :: params) callee m
  | tail {a arguments param params callee m callee' m'}
      (first : passArguments [a] [param] callee m = (.ok callee', m'))
      (h : ArgumentsComeTo g n arguments params callee' m') :
      ArgumentsComeTo g n (a :: arguments) (param :: params) callee m

/-- In executing a terminator, a value expression is evaluated. -/
inductive TerminatorComesTo (g : ValueExpr) (n : Machine) : Terminator → Machine → Prop
  | ite {condition onTrue onFalse m} (h : ValueComesTo g n condition m) :
      TerminatorComesTo g n (.ite condition onTrue onFalse) m
  | switch {value cases fallback m} (h : ValueComesTo g n value m) :
      TerminatorComesTo g n (.switch value cases fallback) m
  | callee {callee arguments result resultAbi next convention m} (h : ValueComesTo g n callee m) :
      TerminatorComesTo g n (.call callee arguments result resultAbi next convention) m
  | result {callee arguments result resultAbi next convention m v m₁ name f p f' m₂}
      (called : evalValue callee m = (.ok v, m₁)) (named : m₁.calledFunction v.1 = .ok name)
      (found : newFrame name m₁ = (.ok f, m₁))
      (begun : beginLocal f f.function.result m₁ = (.ok (p, f'), m₂))
      (h : PlaceComesTo g n result m₂) :
      TerminatorComesTo g n (.call callee arguments result resultAbi next convention) m
  | arguments {callee arguments result resultAbi next convention m v m₁ name f p f' m₂ place m₃}
      (called : evalValue callee m = (.ok v, m₁)) (named : m₁.calledFunction v.1 = .ok name)
      (found : newFrame name m₁ = (.ok f, m₁))
      (begun : beginLocal f f.function.result m₁ = (.ok (p, f'), m₂))
      (awaiting : evalPlace result m₂ = (.ok place, m₃))
      (h : ArgumentsComeTo g n arguments f'.function.params { f' with result := some place } m₃) :
      TerminatorComesTo g n (.call callee arguments result resultAbi next convention) m
  | intrinsic {op arguments result next m} (h : ValuesComeTo g n arguments m) :
      TerminatorComesTo g n (.intrinsic op arguments result next) m
  | intrinsicResult {op arguments place next m vs m'} (first : evalAll arguments m = (.ok vs, m'))
      (h : PlaceComesTo g n place m') :
      TerminatorComesTo g n (.intrinsic op arguments (some place) next) m

variable {id : AllocId} {α β : Type}

/-- Among what is evaluated on the way is a cast of a pointer that carries the name. -/
def Casting (id : AllocId) (comesTo : ValueExpr → Machine → Prop) : Prop :=
  ∃ e p ty n n', comesTo (.unary .expose e) n ∧ evalValue e n = (.ok (.ptr p, ty), n') ∧
    p.provenance = some id

theorem Casting.mono {comesTo comesTo' : ValueExpr → Machine → Prop} (h : Casting id comesTo)
    (sub : ∀ {g n}, comesTo g n → comesTo' g n) : Casting id comesTo' := by
  obtain ⟨e, p, ty, n, n', comes, pointer, carries⟩ := h
  exact ⟨e, p, ty, n, n', sub comes, pointer, carries⟩

/-- The next step casts a pointer that carries the name to an address, or it is the intrinsic that
exposes the provenance of such a pointer. -/
inductive Exposes (m : Machine) (id : AllocId) : Prop
  | statement {f name block s} (h : m.Executes f name block)
      (next : block.statements[f.index]? = some s)
      (casting : Casting id fun g n => StatementComesTo g n s (m.begun f name))
  | terminator {f name block} (h : m.Executes f name block)
      (last : block.statements[f.index]? = none)
      (casting : Casting id fun g n => TerminatorComesTo g n block.terminator (m.begun f name))
  | intrinsic {f name block arguments result next p ty n} (h : m.Executes f name block)
      (last : block.statements[f.index]? = none)
      (terminator : block.terminator = .intrinsic .exposeProvenance arguments result next)
      (argument : evalAll arguments (m.begun f name) = (.ok [(.ptr p, ty)], n))
      (carries : p.provenance = some id)

/-! ## Following a name -/

/-- If an action succeeds, and a name is exposed afterwards, it was exposed before or else something
holds of the machine in which the action began. -/
def Exposing (id : AllocId) (x : Action Machine α) (cause : Machine → Prop) : Prop :=
  ∀ ⦃m a m'⦄, x m = (.ok a, m') → id ∈ m'.store.casts.exposed →
    id ∈ m.store.casts.exposed ∨ cause m

/-- An action that exposes nothing. -/
abbrev Quiet (id : AllocId) (x : Action Machine α) : Prop :=
  Exposing id x fun _ => False

namespace Exposing

variable {x : Action Machine α} {f : α → Action Machine β} {cause cause' : Machine → Prop}
  {later : α → Machine → Prop}

theorem mono (h : Exposing id x cause) (sub : ∀ m, cause m → cause' m) : Exposing id x cause' :=
  fun _ _ _ run exposed => (h run exposed).imp_right (sub _)

/-- An action that exposes nothing needs no cause. -/
theorem of_quiet (h : Quiet id x) : Exposing id x cause :=
  h.mono fun _ => False.elim

/-- What exposes the name is the first action or the second one. What holds where the second one
begins may refer to the first, which has led there. -/
theorem bind (hx : Exposing id x cause)
    (hf : ∀ a, Exposing id (f a) fun m' => ∀ m, x m = (.ok a, m') → cause m) :
    Exposing id (x >>= f) cause := by
  intro m b m' run exposed
  obtain ⟨a, t, first, second⟩ := Action.bind_eq_ok_iff.1 run
  rcases hf a second exposed with old | new
  · exact hx first old
  · exact .inr (new m first)

/-- The first action exposes nothing. -/
theorem quietBind (hx : Quiet id x)
    (hf : ∀ a, Exposing id (f a) fun m' => ∀ m, x m = (.ok a, m') → cause m) :
    Exposing id (x >>= f) cause :=
  bind (of_quiet hx) hf

/-- The second action exposes nothing. -/
theorem bindQuiet (hx : Exposing id x cause) (hf : ∀ a, Quiet id (f a)) :
    Exposing id (x >>= f) cause :=
  bind hx fun a => of_quiet (hf a)

/-- The first action only looks something up. -/
theorem check {e : Except Fault α} (hf : ∀ a, e = .ok a → Exposing id (f a) cause) :
    Exposing id (Action.ofExcept e >>= f) cause := by
  intro m b m' run exposed
  obtain ⟨a, _, first, second⟩ := Action.bind_eq_ok_iff.1 run
  obtain ⟨known, rfl⟩ := Action.ofExcept_eq_iff.1 first
  exact hf a known second exposed

/-- The first action asks for the target. -/
theorem withTarget {f : Target → Action Machine β} (hf : ∀ t, Exposing id (f t) cause) :
    Exposing id (getTarget >>= f) cause :=
  fun m _ _ run => hf m.target run

theorem quiet (h : ∀ m a m', x m = (.ok a, m') →
      m'.store.casts.exposed = m.store.casts.exposed) : Quiet id x :=
  fun m a m' run exposed => .inl (h m a m' run ▸ exposed)

theorem pure {a : α} : Quiet id (pure a) :=
  quiet fun m b m' run => by
    obtain ⟨-, rfl⟩ := Action.pure_eq_ok_iff.1 run
    rfl

theorem throw {e : Fault} : Quiet id (throw e : Action Machine α) :=
  fun _ _ _ run => nomatch run

theorem ofExcept {e : Except Fault α} : Quiet id (Action.ofExcept e) :=
  quiet fun m b m' run => by
    obtain ⟨-, rfl⟩ := Action.ofExcept_eq_iff.1 run
    rfl

theorem need {c : Bool} {e : Fault} : Quiet id (Action.need c e) :=
  ofExcept

theorem ask {f : Machine → Except Fault α} : Quiet id (Action.ask f) :=
  quiet fun m b m' run => by
    obtain ⟨-, rfl⟩ := Prod.mk.inj run
    rfl

theorem get : Quiet id (get : Action Machine Machine) :=
  quiet fun m a m' run => by
    cases run
    rfl

theorem getTarget : Quiet id getTarget :=
  quiet fun m b m' run => by
    cases run
    rfl

theorem frame : Quiet id frame :=
  quiet fun m f m' run => by
    obtain ⟨rfl, -⟩ := frame_eq_ok_iff.1 run
    rfl

theorem modify {change : Machine → Machine}
    (h : ∀ m, (change m).store.casts = m.store.casts) : Quiet id (modify change) :=
  quiet fun m u m' run => by
    cases run
    rw [h]

theorem note (e : Event) : Quiet id (note e) :=
  modify fun _ => rfl

theorem askStore {f : Memory → Except Fault α} : Quiet id (onStore (Store.ask f)) :=
  quiet fun m a m' run => by
    obtain ⟨-, rfl⟩ := Prod.mk.inj run
    rfl

theorem changeStore {f : Memory → Except Fault Memory} : Quiet id (onStore (Store.change f)) :=
  quiet fun m u m' run => by
    obtain ⟨mem, -, rfl⟩ := onStore_change_eq_ok_iff.1 run
    rfl

theorem allocate {size align : Int} {kind : AllocKind} :
    Quiet id (onStore (Store.allocate size align kind)) :=
  quiet fun m p m' run => by
    obtain ⟨mem, journal, -, rfl⟩ := onStore_allocate_eq_ok run
    rfl

theorem deallocate {p : Pointer} {size align : Int} {kind : AllocKind} :
    Quiet id (onStore (Store.deallocate p size align kind)) :=
  quiet fun m u m' run => by
    obtain ⟨mem, journal, -, rfl⟩ := onStore_deallocate_eq_ok run
    rfl

theorem fromAddr (addr : Int) : Quiet id (fromAddr addr) :=
  quiet fun m p m' run => by
    obtain ⟨-, journal, rfl⟩ := fromAddr_eq_ok run
    rfl

/-- The only action that exposes a name exposes that of its pointer. -/
theorem expose (p : Pointer) :
    Exposing id (onStore (Store.expose p)) fun _ => p.provenance = some id := by
  intro m addr m' run exposed
  obtain ⟨journal, done⟩ := onStore_expose p m
  obtain ⟨-, rfl⟩ := Prod.mk.inj (done.symm.trans run)
  exact Casts.mem_exposed_expose.1 exposed

end Exposing

/-! ## Expressions -/

section Expressions

/-- Of the operators only the cast to an address exposes, and it does so on a pointer. -/
theorem exposing_evalUnary (op : UnaryOp) (v : Value) (ty : Ty) :
    Exposing id (evalUnary op v ty) fun _ =>
      op = .expose ∧ ∃ p, v = .ptr p ∧ p.provenance = some id := by
  cases op with
  | neg | bitNot | cast t =>
      exact .of_quiet (.bindQuiet .ofExcept fun _ => .bindQuiet .ofExcept fun _ => .pure)
  | not => exact .of_quiet (.bindQuiet .ofExcept fun _ => .pure)
  | transmute t =>
      exact .of_quiet (.bindQuiet .getTarget fun _ => .bindQuiet .ofExcept fun _ => .pure)
  | expose =>
      cases v with
      | ptr p =>
          refine .bindQuiet ((Exposing.expose p).mono fun _ carries => ⟨rfl, p, rfl, carries⟩) ?_
          exact fun _ => .bindQuiet .getTarget fun _ => .pure
      | _ => exact .of_quiet .throw
  | fromAddr t =>
      refine .of_quiet (.bindQuiet .ofExcept fun _ => .bindQuiet .getTarget fun _ => ?_)
      refine .bindQuiet .ofExcept fun _ => .bindQuiet .need fun _ => ?_
      refine .bindQuiet (.fromAddr _) fun _ => .bindQuiet .ofExcept fun _ => ?_
      exact .bindQuiet .need fun _ => .pure

theorem quiet_evalBinary (op : BinaryOp) (l : Value) (lt : Ty) (r : Value) (rt : Ty) :
    Quiet id (evalBinary op l lt r rt) := by
  cases op with
  | int op =>
      refine .bindQuiet .ofExcept fun _ => .bindQuiet .ofExcept fun _ => ?_
      exact .bindQuiet .ofExcept fun _ => .pure
  | bool op => exact .bindQuiet .ofExcept fun _ => .bindQuiet .ofExcept fun _ => .pure
  | rel op => exact .ofExcept
  | offset inbounds =>
      cases l with
      | ptr p =>
          refine .bindQuiet .ofExcept fun _ => ?_
          cases inbounds with
          | true => exact .bindQuiet .askStore fun _ => .pure
          | false => exact .bindQuiet .getTarget fun _ => .bindQuiet .ofExcept fun _ => .pure
      | _ => exact .throw

mutual

/-- What evaluating an expression exposes is exposed by a cast on the way. -/
theorem exposing_evalValue : ∀ e : ValueExpr,
    Exposing id (evalValue e) fun m => Casting id fun g n => ValueComesTo g n e m
  | .constant v ty => by
      rw [evalValue]
      exact .of_quiet .pure
  | .function name => by
      rw [evalValue]
      refine .of_quiet (.bindQuiet .get fun m => ?_)
      cases m.functions.find? name with
      | none => exact .throw
      | some addr => exact .pure
  | .tuple parts ty => by
      rw [evalValue]
      refine .check fun _ isTuple => ?_
      refine .bindQuiet ((exposing_evalAll parts).mono fun m casting => ?_) ?_
      · exact casting.mono (.tuple isTuple)
      · exact fun _ => .pure
  | .union field operand ty => by
      rw [evalValue]
      refine .bindQuiet ((exposing_evalValue operand).mono fun m casting => casting.mono .union) ?_
      exact fun ⟨v, _⟩ => .bindQuiet .getTarget fun _ => .bindQuiet .ofExcept fun _ => .pure
  | .variant d payload ty => by
      rw [evalValue]
      refine .bindQuiet ((exposing_evalValue payload).mono fun m h => h.mono .variant) ?_
      exact fun ⟨v, _⟩ => .bindQuiet .ofExcept fun _ => .pure
  | .discriminant p => by
      rw [evalValue]
      refine .bindQuiet ((exposing_evalPlace p).mono fun m casting => casting.mono .discriminant) ?_
      rintro ⟨p, ⟨ty, align⟩⟩
      cases ty with
      | enum e =>
          refine .bindQuiet .askStore fun data => .bindQuiet .getTarget fun target => ?_
          cases e.discriminator.decode target data with
          | none => exact .throw
          | some d => exact .pure
      | _ => exact .throw
  | .load p destructive => by
      rw [evalValue]
      refine .bindQuiet ((exposing_evalPlace p).mono fun m casting => casting.mono .load) ?_
      rintro ⟨p, place⟩
      refine .bindQuiet .askStore fun v => ?_
      cases destructive with
      | false => exact .pure
      | true => exact .bindQuiet .changeStore fun _ => .pure
  | .addrOf p ty => by
      rw [evalValue]
      refine .bindQuiet ((exposing_evalPlace p).mono fun m casting => casting.mono .addrOf) ?_
      exact fun ⟨p, _⟩ => .pure
  | .createRef p ty => by
      rw [evalValue]
      refine .bindQuiet ((exposing_evalPlace p).mono fun m casting => casting.mono .createRef) ?_
      exact fun ⟨p, _⟩ => .bindQuiet .getTarget fun _ => .bindQuiet .ofExcept fun _ =>
        .bindQuiet .need fun _ => .pure
  | .unary op operand => by
      rw [evalValue]
      refine .bind ((exposing_evalValue operand).mono fun m casting => casting.mono .unary) ?_
      refine fun ⟨v, ty⟩ => (exposing_evalUnary op v ty).mono ?_
      -- The cast that is come to is this one, on the operand that was just evaluated.
      rintro m' ⟨rfl, p, rfl, carries⟩ m evaluated
      exact ⟨operand, p, ty, m, m', .here, evaluated, carries⟩
  | .binary op left right => by
      rw [evalValue]
      refine .bind ((exposing_evalValue left).mono fun m casting => casting.mono .left) ?_
      refine fun ⟨l, lt⟩ => .bindQuiet ((exposing_evalValue right).mono ?_) fun ⟨r, rt⟩ =>
        quiet_evalBinary op l lt r rt
      exact fun m' casting m first => casting.mono (.right first)

theorem exposing_evalPlace : ∀ p : PlaceExpr,
    Exposing id (evalPlace p) fun m => Casting id fun g n => PlaceComesTo g n p m
  | .var name => by
      rw [evalPlace]
      refine .of_quiet (.bindQuiet .frame fun f => ?_)
      cases f.locals.find? name with
      | none => exact .throw
      | some p => exact .bindQuiet .ofExcept fun _ => .pure
  | .deref operand place => by
      rw [evalPlace]
      refine .bindQuiet ((exposing_evalValue operand).mono fun m casting => casting.mono .deref) ?_
      rintro ⟨v, _⟩
      cases v with
      | ptr p => exact .pure
      | _ => exact .throw
  | .field root i => by
      rw [evalPlace]
      refine .bindQuiet ((exposing_evalPlace root).mono fun m casting => casting.mono .field) ?_
      exact fun _ => .bindQuiet .ofExcept fun _ => .bindQuiet .askStore fun _ => .pure
  | .index root i => by
      rw [evalPlace]
      refine .bind ((exposing_evalPlace root).mono fun m casting => casting.mono .root) fun _ => ?_
      refine .bindQuiet ((exposing_evalValue i).mono ?_) fun _ => .bindQuiet .getTarget fun _ => ?_
      · exact fun m' casting m first => casting.mono (.index first)
      · exact .bindQuiet .ofExcept fun _ => .bindQuiet .askStore fun _ => .pure
  | .downcast root d => by
      rw [evalPlace]
      refine .bindQuiet ((exposing_evalPlace root).mono fun m casting => casting.mono .downcast) ?_
      rintro ⟨p, ⟨ty, align⟩⟩
      cases ty with
      | enum e => exact .bindQuiet .ofExcept fun _ => .pure
      | _ => exact .throw

theorem exposing_evalAll : ∀ es : List ValueExpr,
    Exposing id (evalAll es) fun m => Casting id fun g n => ValuesComeTo g n es m
  | [] => .of_quiet .pure
  | e :: es => by
      rw [evalAll]
      refine .bind ((exposing_evalValue e).mono fun m casting => casting.mono .head) fun _ => ?_
      refine .bindQuiet ((exposing_evalAll es).mono fun m' casting m first => ?_) fun _ => .pure
      exact casting.mono (.tail first)

end

end Expressions

/-! ## Statements -/

theorem quiet_storeTag (p : Pointer) (align : Int) (writes : List TagWrite) :
    Quiet id (storeTag p align writes) := by
  induction writes with
  | nil => exact .pure
  | cons w rest ih => exact .bindQuiet .askStore fun _ => .bindQuiet .changeStore fun _ => ih

theorem quiet_modifyFrame {change : Frame → Frame} : Quiet id (modifyFrame change) :=
  .modify fun _ => rfl

theorem quiet_beginLocal (f : Frame) (name : String) : Quiet id (beginLocal f name) :=
  .bindQuiet .need fun _ => .bindQuiet .ofExcept fun _ => .bindQuiet .getTarget fun _ =>
    .bindQuiet .allocate fun _ => .pure

theorem quiet_freeLocal (f : Frame) (name : String) (p : Pointer) : Quiet id (freeLocal f name p) :=
  .bindQuiet .ofExcept fun _ => .bindQuiet .getTarget fun _ => .deallocate

/-- What executing a statement exposes is exposed by a cast on the way. -/
theorem exposing_execute (s : Statement) :
    Exposing id (execute s) fun m => Casting id fun g n => StatementComesTo g n s m := by
  cases s with
  | assign destination source =>
      refine .bind ((exposing_evalValue source).mono fun m casting => casting.mono .source) ?_
      refine fun _ => .bindQuiet ((exposing_evalPlace destination).mono ?_) fun _ => .changeStore
      exact fun m' casting m first => casting.mono (.destination first)
  | finalize place =>
      refine .bindQuiet ((exposing_evalPlace place).mono fun m casting => casting.mono .finalize) ?_
      exact fun _ => .bindQuiet .askStore fun _ => .pure
  | live name =>
      refine .of_quiet (.bindQuiet .frame fun f => ?_)
      exact .bindQuiet (quiet_beginLocal f name) fun _ => quiet_modifyFrame
  | dead name =>
      refine .of_quiet (.bindQuiet .frame fun f => ?_)
      cases f.locals.find? name with
      | none => exact .throw
      | some p => exact .bindQuiet quiet_modifyFrame fun _ => quiet_freeLocal f name p
  | setDiscriminant place d =>
      refine .bindQuiet
        ((exposing_evalPlace place).mono fun m casting => casting.mono .setDiscriminant) ?_
      rintro ⟨p, ⟨ty, align⟩⟩
      cases ty with
      | enum e => exact .bindQuiet .ofExcept fun variant => quiet_storeTag p align variant.tagger
      | _ => exact .throw
  | deinit place =>
      refine .bindQuiet ((exposing_evalPlace place).mono fun m casting => casting.mono .deinit) ?_
      exact fun _ => .changeStore
  | validate place =>
      refine .bindQuiet ((exposing_evalPlace place).mono fun m casting => casting.mono .validate) ?_
      exact fun _ => .bindQuiet .askStore fun _ => .bindQuiet .askStore fun _ => .changeStore
  | mention place =>
      refine .bindQuiet ((exposing_evalPlace place).mono fun m casting => casting.mono .mention) ?_
      exact fun _ => .pure

/-! ## Terminators -/

theorem quiet_jump (block : String) : Quiet id (jump block) :=
  .bindQuiet .frame fun _ => .bindQuiet .need fun _ => quiet_modifyFrame

theorem quiet_newFrame (name : String) : Quiet id (newFrame name) :=
  .quiet fun m f m' run => by
    obtain ⟨rfl, -⟩ := newFrame_eq_ok_iff.1 run
    rfl

theorem exposing_passArguments : ∀ (arguments : List (ValueExpr × ArgAbi))
    (params : List (String × ArgAbi)) (callee : Frame),
    Exposing id (passArguments arguments params callee) fun m =>
      Casting id fun g n => ArgumentsComeTo g n arguments params callee m
  | a :: arguments, param :: params, callee => by
      -- The first argument by itself leads to a machine that `tail` can name.
      rw [passArguments_cons]
      refine .bind ?_ fun f => (exposing_passArguments arguments params f).mono
        fun m' casting m first => casting.mono (.tail first)
      obtain ⟨e, given⟩ := a
      obtain ⟨name, expected⟩ := param
      rw [passArguments]
      refine .bindQuiet ((exposing_evalValue e).mono fun m h => h.mono fun h => .head h) fun _ => ?_
      refine .bindQuiet .need fun _ => .bindQuiet .ofExcept fun _ => ?_
      refine .bindQuiet .getTarget fun _ => ?_
      refine .bindQuiet .need fun _ => .bindQuiet (quiet_beginLocal callee name) fun _ => ?_
      refine .bindQuiet .changeStore fun _ => ?_
      rw [passArguments_nil]
      exact .pure
  | [], params, callee => by
      rw [passArguments_nil]
      exact .of_quiet .pure
  | a :: arguments, [], callee => by
      rw [passArguments_of_no_params]
      exact .of_quiet .pure

/-- What a call exposes is exposed by a cast in the callee, in the place for the result, or in an
argument. -/
theorem exposing_execCall (callee : ValueExpr) (arguments : List (ValueExpr × ArgAbi))
    (result : PlaceExpr) (resultAbi : ArgAbi) (next : Option String)
    (convention : CallingConvention) :
    Exposing id (execCall callee arguments result resultAbi next convention) fun m =>
      Casting id fun g n =>
        TerminatorComesTo g n (.call callee arguments result resultAbi next convention) m := by
  refine .bind ((exposing_evalValue callee).mono fun m casting => casting.mono .callee) fun v => ?_
  refine .quietBind .ask fun name => .quietBind (quiet_newFrame name) fun f => ?_
  refine .check fun _ _ => .check fun _ _ => .check fun resultPlace _ => ?_
  refine .quietBind (quiet_beginLocal f _) fun ⟨p, f'⟩ => ?_
  -- Naming the function and making its frame leave the machine as it was.
  refine .bind ((exposing_evalPlace result).mono ?_) fun place => ?_
  · intro m₂ casting m₁ begun _ found _ asked m called
    obtain ⟨rfl, -⟩ := newFrame_eq_ok_iff.1 found
    obtain ⟨named, rfl⟩ := Prod.mk.inj asked
    exact casting.mono (.result called named found begun)
  refine .check fun _ _ => .withTarget fun target => .check fun _ _ => ?_
  refine .bindQuiet ((exposing_passArguments arguments _ _).mono ?_) fun g => ?_
  · intro m₃ casting m₂ awaiting m₁ begun _ found _ asked m called
    obtain ⟨rfl, -⟩ := newFrame_eq_ok_iff.1 found
    obtain ⟨named, rfl⟩ := Prod.mk.inj asked
    exact casting.mono (.arguments called named found begun awaiting)
  · exact .bindQuiet .frame fun _ => .bindQuiet quiet_modifyFrame fun _ =>
      .bindQuiet (.modify fun _ => rfl) fun _ => .note _

theorem quiet_printAll (toStderr : Bool) (arguments : List (Value × Ty)) :
    Quiet id (printAll toStderr arguments) := by
  induction arguments with
  | nil => exact .pure
  | cons a rest ih =>
      refine .bindQuiet .ofExcept fun line => .bindQuiet (.modify fun m => ?_) fun _ => ih
      cases toStderr <;> rfl

/-- Of the intrinsics only one exposes, and it does so on a pointer. -/
theorem exposing_performIntrinsic (op : IntrinsicOp) (arguments : List (Value × Ty)) :
    Exposing id (performIntrinsic op arguments) fun _ => op = .exposeProvenance ∧
      ∃ p ty, arguments = [(.ptr p, ty)] ∧ p.provenance = some id := by
  unfold performIntrinsic
  split
  · exact .of_quiet (.bindQuiet (quiet_printAll _ _) fun _ => .pure)
  · exact .of_quiet (.bindQuiet (quiet_printAll _ _) fun _ => .pure)
  · exact .of_quiet .throw
  · exact .of_quiet .throw
  · exact .of_quiet (.bindQuiet .ofExcept fun _ => .bindQuiet .ofExcept fun _ =>
      .bindQuiet .allocate fun _ => .pure)
  · exact .of_quiet (.bindQuiet .ofExcept fun _ => .bindQuiet .ofExcept fun _ =>
      .bindQuiet .ofExcept fun _ => .bindQuiet .deallocate fun _ => .pure)
  · refine .check fun p known => .bindQuiet ((Exposing.expose p).mono fun m carries => ?_) fun _ =>
      .bindQuiet .getTarget fun _ => .pure
    unfold ptrArgument at known
    split at known
    · obtain rfl := Except.ok.inj known
      exact ⟨rfl, _, _, rfl, carries⟩
    · cases known
  · refine .of_quiet (.bindQuiet .ofExcept fun addr => .bindQuiet .getTarget fun _ => ?_)
    refine .bindQuiet .ofExcept fun _ => .bindQuiet .need fun _ => ?_
    exact .bindQuiet (.fromAddr addr) fun _ => .pure
  · exact .of_quiet (.bindQuiet .need fun _ => .pure)
  · exact .of_quiet .throw

theorem exposing_evalResult (result : Option PlaceExpr) :
    Exposing id (evalResult result) fun m =>
      ∃ place, result = some place ∧ Casting id fun g n => PlaceComesTo g n place m := by
  cases result with
  | none => exact .of_quiet .pure
  | some place =>
      exact .bindQuiet ((exposing_evalPlace place).mono fun m casting => ⟨place, rfl, casting⟩)
        fun _ => .pure

/-- What an intrinsic exposes is exposed by a cast on the way, or by itself. -/
theorem exposing_execIntrinsic (op : IntrinsicOp) (arguments : List ValueExpr)
    (result : Option PlaceExpr) (next : Option String) :
    Exposing id (execIntrinsic op arguments result next) fun m =>
      Casting id (fun g n => TerminatorComesTo g n (.intrinsic op arguments result next) m) ∨
        op = .exposeProvenance ∧ ∃ p ty n, evalAll arguments m = (.ok [(.ptr p, ty)], n) ∧
          p.provenance = some id := by
  refine .bind ((exposing_evalAll arguments).mono fun m h => .inl (h.mono .intrinsic)) ?_
  refine fun vs => .bind ((exposing_evalResult result).mono ?_) fun place => ?_
  · rintro m' ⟨place, rfl, casting⟩ m first
    exact .inl (casting.mono (.intrinsicResult first))
  refine .bindQuiet ((exposing_performIntrinsic op vs).mono ?_) fun ⟨v, ty⟩ => ?_
  · rintro _ ⟨rfl, p, ty, rfl, carries⟩ m' - m first
    exact .inr ⟨rfl, p, ty, m', first, carries⟩
  refine .bindQuiet ?_ fun _ => ?_
  · cases place with
    | none => exact .pure
    | some r => exact .bindQuiet .need fun _ => .changeStore
  · cases next with
    | none => exact .throw
    | some block => exact quiet_jump block

theorem quiet_freeLocals (f : Frame) (entries : List (String × Pointer)) :
    Quiet id (freeLocals f entries) := by
  induction entries with
  | nil => exact .pure
  | cons e rest ih => exact .bindQuiet (quiet_freeLocal f e.1 e.2) fun _ => ih

theorem quiet_execReturn : Quiet id execReturn := by
  refine .bindQuiet (.quiet fun m f m' run => ?_) fun f => ?_
  · rw [(popFrame_eq_ok_iff.1 run).2]
  cases f.locals.find? f.function.result with
  | none => exact .throw
  | some p =>
      refine .bindQuiet .ofExcept fun place => .bindQuiet .askStore fun v => ?_
      refine .bindQuiet ?_ fun _ => .bindQuiet (quiet_freeLocals f _) fun _ =>
        .bindQuiet (.note _) fun _ => .bindQuiet .get fun m => ?_
      · cases f.result with
        | none => exact .pure
        | some r => exact .changeStore
      · cases m.stack with
        | nil => exact .throw
        | cons caller rest => exact .need

/-- What executing a terminator exposes is exposed by a cast on the way, or it is the intrinsic that
does it. -/
theorem exposing_finish (t : Terminator) :
    Exposing id (finish t) fun m => Casting id (fun g n => TerminatorComesTo g n t m) ∨
      ∃ arguments result next p ty n, t = .intrinsic .exposeProvenance arguments result next ∧
        evalAll arguments m = (.ok [(.ptr p, ty)], n) ∧ p.provenance = some id := by
  cases t with
  | goto block => exact .of_quiet (quiet_jump block)
  | ite condition onTrue onFalse =>
      refine .bindQuiet ((exposing_evalValue condition).mono fun m h => .inl (h.mono .ite)) ?_
      rintro ⟨v, _⟩
      cases v with
      | bool b => exact quiet_jump _
      | _ => exact .throw
  | switch value cases fallback =>
      refine .bindQuiet ((exposing_evalValue value).mono fun m h => .inl (h.mono .switch)) ?_
      rintro ⟨v, _⟩
      cases v with
      | int n => exact quiet_jump _
      | _ => exact .throw
  | unreachable => exact .of_quiet .throw
  | call callee arguments result resultAbi next convention =>
      exact (exposing_execCall callee arguments result resultAbi next convention).mono fun _ => .inl
  | ret => exact .of_quiet quiet_execReturn
  | intrinsic op arguments result next =>
      refine (exposing_execIntrinsic op arguments result next).mono fun m => .imp_right ?_
      rintro ⟨rfl, p, ty, n, evaluated, carries⟩
      exact ⟨arguments, result, next, p, ty, n, rfl, evaluated, carries⟩

/-- What a step exposes it exposes by a cast, or by the intrinsic for it. -/
theorem exposes_of_step {m m' : Machine} (run : step m = (.ok (), m'))
    (exposed : id ∈ m'.store.casts.exposed) : id ∈ m.store.casts.exposed ∨ m.Exposes id := by
  obtain ⟨f, name, block, executes⟩ := exists_executes run
  rw [step_of_executes executes, instruction] at run
  cases next : block.statements[f.index]? with
  | some s =>
      rw [next] at run
      have exposing : Exposing id (do
          execute s
          modifyFrame fun f => { f with index := f.index + 1 })
          fun m => Casting id fun g n => StatementComesTo g n s m :=
        .bindQuiet (exposing_execute s) fun _ => quiet_modifyFrame
      exact (exposing run exposed).imp_right (.statement executes next)
  | none =>
      rw [next] at run
      refine (exposing_finish block.terminator run exposed).imp_right ?_
      rintro (casting | ⟨arguments, result, then_, p, ty, n, terminator, evaluated, carries⟩)
      · exact .terminator executes next casting
      · exact .intrinsic executes next terminator evaluated carries

end Machine

end AbstractMachine
