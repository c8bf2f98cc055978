/-
# AbstractMachine.Proofs.Machine.Answers — what evaluating an expression keeps

Evaluating an expression yields a value and a type, and nothing compares the two. The type is taken
from the expression, from the declaration of a local or from what an operator says of itself. What can
be shown of the two depends on how strict the expressions are about their types, and this is said by
a `Discipline`: the types that expressions are written with, those of the pointers that are made of
the address of a place, and those of the pointers that are moved. What the parts of an expression
yield is known only when they are evaluated, so to obey a discipline is a property of an expression in
a state.

A discipline keeps a property of answers if the machine cannot leave it where the discipline is obeyed
(`Discipline.Keeps`). That is said of what the machine makes itself, once for each way to do so, and
carries over to all expressions by one induction over their syntax (`Keeps.evalValue`). Everything
else is seen to by the machine: what is loaded was decoded, and a place that is projected stays
between the addresses that there are.
-/
import AbstractMachine.Proofs.Machine.Foundation
import AbstractMachine.Proofs.Operator

namespace AbstractMachine

/-! ## What is asked of programs -/

/-- The types with which the locals of a program are declared are as said. -/
def Program.Declares (P : Ty → Prop) (p : Program) : Prop :=
  ∀ f, p.Has f → ∀ d ∈ f.locals.entries, P d.2.ty

/-- Values of these types, in this order, make up a tuple or an array of the type. -/
def Ty.Takes : Ty → List Ty → Prop
  | .tuple fields _, types => types = fields.map (·.ty)
  | .array elem count, types => (types.length : Int) = count ∧ ∀ t ∈ types, t = elem
  | _, _ => False

/-- The values that a tuple takes have the types of its fields. -/
theorem Ty.Takes.forall₂ {fields : List Field} {size : Int} {vs : List (Value × Ty)}
    (h : (Ty.tuple fields size).Takes (vs.map (·.2))) :
    List.Forall₂ (fun (f : Field) (a : Value × Ty) => a ∈ vs ∧ a.2 = f.ty) fields vs := by
  have same : List.Forall₂ (· = ·) (vs.map (·.2)) (fields.map (·.ty)) := by
    rw [h]
    exact List.forall₂_refl _
  rw [List.forall₂_map_left_iff, List.forall₂_map_right_iff] at same
  exact (forall₂_mem same).flip

/-- The type that an operator is written with, if it is. -/
def UnaryOp.ty? : UnaryOp → Option Ty
  | .cast t => some (.int t)
  | .transmute t => some t
  | .fromAddr t => some t
  | _ => none

/-- The types that expressions may be written with, those of the pointers that they may make of the
address of a place, and those of the pointers that they may move. -/
structure Discipline where
  types : Ty → Prop
  taken : Ty → Prop
  moved : Ty → Prop

mutual

/-- Evaluated in this state, the parts of a value expression have the types that they have to have,
and its types are those of the discipline. -/
def ValueExpr.Obeys (D : Discipline) : ValueExpr → Machine → Prop
  | .constant v ty, m => D.types ty ∧ ty.wellFormed m.target v = .ok true
  | .function _, _ => True
  | .tuple parts ty, m => D.types ty ∧ ValueExpr.allObey D parts m ∧
      ∀ vs m', Machine.evalAll parts m = (.ok vs, m') → ty.Takes (vs.map (·.2))
  | .union _ operand ty, m => D.types (.union ty) ∧ operand.Obeys D m
  | .variant d payload ty, m => D.types (.enum ty) ∧ payload.Obeys D m ∧
      ∀ v t m', Machine.evalValue payload m = (.ok (v, t), m') →
        ∀ variant, ty.variantAt d = .ok variant → t = variant.ty
  | .discriminant place, m => place.Obeys D m
  | .load place _, m => place.Obeys D m
  | .addrOf place ty, m => D.taken ty ∧ place.Obeys D m
  | .createRef place ty, m => D.types ty ∧ place.Obeys D m
  | .unary op operand, m => (∀ t ∈ op.ty?, D.types t) ∧ operand.Obeys D m
  | .binary op left right, m => left.Obeys D m ∧
      ∀ v t m', Machine.evalValue left m = (.ok (v, t), m') →
        right.Obeys D m' ∧ ∀ inbounds, op = .offset inbounds → D.moved t

/-- Evaluated in this state, the parts of a place expression have the types that they have to have,
and its types are those of the discipline. -/
def PlaceExpr.Obeys (D : Discipline) : PlaceExpr → Machine → Prop
  | .var _, _ => True
  | .deref operand place, m => D.types place.ty ∧ operand.Obeys D m
  | .field root _, m => root.Obeys D m
  | .index root i, m => root.Obeys D m ∧
      ∀ a m', Machine.evalPlace root m = (.ok a, m') → i.Obeys D m'
  | .downcast root _, m => root.Obeys D m

def ValueExpr.allObey (D : Discipline) : List ValueExpr → Machine → Prop
  | [], _ => True
  | e :: es, m => e.Obeys D m ∧
      ∀ a m', Machine.evalValue e m = (.ok a, m') → ValueExpr.allObey D es m'

end

/-! ## What is shown of answers -/

/-- A value is one of the type that comes with it, and the type is regular all through. -/
structure Typed (target : Target) (a : Value × Ty) : Prop where
  regular : a.2.All (Ty.Regular target)
  wellFormed : a.2.wellFormed target a.1 = .ok true

/-- A place has an address, and a type that is regular all through. -/
structure Located (target : Target) (a : Pointer × PlaceTy) : Prop where
  regular : a.2.ty.All (Ty.Regular target)
  address : target.addrInBounds a.1.addr = .ok true

variable {target : Target} {v w l r : Value} {ty lt rt : Ty} {p q : Pointer} {place : PlaceTy}

namespace Typed

theorem raw (address : target.addrInBounds p.addr = .ok true) :
    Typed target (.ptr p, .ptr .raw) :=
  ⟨Ty.all_regular_ptr, Ty.wellFormed_ptr_iff.2 ⟨p, rfl, address, rfl⟩⟩

/-- A function pointer may have any address but zero. -/
theorem function (width : 1 ≤ target.ptrSize) {addr : Int} (positive : 0 < addr)
    (below : addr < target.limit) : Typed target (.ptr ⟨addr, none⟩, .ptr .fn) := by
  refine ⟨Ty.all_regular_ptr, Ty.wellFormed_ptr_iff.2 ⟨_, rfl, ?_, ?_⟩⟩
  · rw [Target.addrInBounds_eq width]
    exact congrArg Except.ok (decide_eq_true ⟨Int.le_of_lt positive, below⟩)
  · have nonzero : addr ≠ 0 := by omega
    simp [PtrTy.validAddr, PtrTy.safePointee, Pointee.validAddr, nonzero, isAligned]

theorem bool {b : Bool} : Typed target (.bool b, .bool) :=
  ⟨Ty.all_regular_bool, rfl⟩

theorem int {t : IntTy} {n : Int} (sized : 1 ≤ t.size) (h : t.canRepresent n = .ok true) :
    Typed target (.int n, .int t) :=
  ⟨Ty.all_regular_int sized, Ty.wellFormed_int_iff.2 ⟨n, rfl, h⟩⟩

theorem address (h : Typed target (.ptr p, ty)) : target.addrInBounds p.addr = .ok true := by
  have valid := h.wellFormed
  cases ty with
  | ptr t =>
      obtain ⟨_, ⟨⟩, address, -⟩ := Ty.wellFormed_ptr_iff.1 valid
      exact address
  | _ => simp [Ty.wellFormed] at valid

/-- Values of the right types make up a tuple or an array. -/
theorem tuple {vs : List (Value × Ty)} (regular : ty.All (Ty.Regular target))
    (typed : ∀ a ∈ vs, Typed target a) (takes : ty.Takes (vs.map (·.2))) :
    Typed target (.tuple (vs.map (·.1)), ty) := by
  refine ⟨regular, ?_⟩
  cases ty with
  | tuple fields size =>
      refine Ty.wellFormed_tuple_iff.2 ⟨_, rfl, List.forall₂_map_right_iff.2 ?_⟩
      refine takes.forall₂.imp fun f a ⟨ha, same⟩ => ?_
      exact same ▸ (typed a ha).wellFormed
  | array elem count =>
      obtain ⟨length, same⟩ := takes
      refine Ty.wellFormed_array_iff.2 ⟨_, rfl, ?_, ?_⟩
      · rw [← length, List.length_map, List.length_map]
      · intro v hv
        obtain ⟨a, ha, rfl⟩ := List.mem_map.1 hv
        exact same a.2 (List.mem_map_of_mem ha) ▸ (typed a ha).wellFormed
  | _ => exact takes.elim

/-- A value of a variant's type makes up an enum. -/
theorem variant {e : EnumTy} {d : Int} {variant : Variant}
    (regular : (Ty.enum e).All (Ty.Regular target)) (found : e.variantAt d = .ok variant)
    (typed : Typed target (v, variant.ty)) : Typed target (.variant d v, .enum e) := by
  obtain ⟨n, rfl, at_⟩ := elementAt_eq_ok_iff.1 found
  exact ⟨regular, Ty.wellFormed_enum_iff.2 ⟨n, variant, v, rfl, at_, typed.wellFormed⟩⟩

end Typed

/-- A property of answers that evaluation keeps where the discipline is obeyed. It holds of all that the
machine has looked at, and it is strong enough for an integer to be in range and for a pointer to have
an address, which is all that operators and places ask of their operands. Where nobody looks it passes
on: to a pointer that is made of an address or moves to another one, to a tuple and to a variant. -/
structure Discipline.Keeps (D : Discipline) (target : Target) (V : Value × Ty → Prop) : Prop where
  regular : ∀ {ty : Ty}, D.types ty → ty.All (Ty.Regular target)
  typed : ∀ {a : Value × Ty}, Typed target a → V a
  int : ∀ {n : Int} {t : IntTy}, V (.int n, .int t) → Typed target (.int n, .int t)
  address : ∀ {p : Pointer} {ty : Ty}, V (.ptr p, ty) → target.addrInBounds p.addr = .ok true
  taken : ∀ {p : Pointer} {ty : Ty}, D.taken ty → target.addrInBounds p.addr = .ok true →
    V (.ptr p, ty)
  moved : ∀ {p q : Pointer} {ty : Ty}, D.moved ty → V (.ptr p, ty) →
    target.addrInBounds q.addr = .ok true → V (.ptr q, ty)
  tuple : ∀ {vs : List (Value × Ty)} {ty : Ty}, ty.All (Ty.Regular target) → (∀ a ∈ vs, V a) →
    ty.Takes (vs.map (·.2)) → V (.tuple (vs.map (·.1)), ty)
  variant : ∀ {e : EnumTy} {d : Int} {v : Value} {variant : Variant},
    (Ty.enum e).All (Ty.Regular target) → e.variantAt d = .ok variant → V (v, variant.ty) →
    V (.variant d v, .enum e)

variable {D : Discipline} {V : Value × Ty → Prop}

/-- An operand that an operator takes for an integer is one of its type. -/
theorem Discipline.Keeps.intOperand {n : Int} {t : IntTy} (keeps : D.Keeps target V) (h : V (v, ty))
    (operand : AbstractMachine.intOperand v ty = .ok (n, t)) :
    ty = .int t ∧ 1 ≤ t.size ∧ t.canRepresent n = .ok true := by
  obtain ⟨rfl, rfl⟩ := intOperand_eq_ok operand
  obtain ⟨regular, wellFormed⟩ := keeps.int h
  obtain ⟨_, ⟨⟩, fits⟩ := Ty.wellFormed_int_iff.1 wellFormed
  exact ⟨rfl, regular.here.int_sized, fits⟩

namespace Machine

/-! ## What evaluation relies on -/

/-- What evaluation relies on in a machine, and leaves as it is. -/
structure Ready (target : Target) (m : Machine) : Prop where
  target_eq : m.target = target
  width : 1 ≤ target.ptrSize
  numbered : m.store.memory.Numbered
  functions : ∀ e ∈ m.functions.entries, 0 < e.2 ∧ e.2 < target.limit
  slots : ∀ f ∈ m.stack, ∀ name p place, f.locals.find? name = some p →
    f.localTy name = .ok place → Located target (p, place)

variable {m m' : Machine} {α β : Type}

theorem Ready.of_outline_eq (h : m.Ready target) (same : m'.outline = m.outline) :
    m'.Ready target := by
  have memory := congrArg (fun m : Machine => m.store.memory) same
  have memory : m'.store.memory.outline = m.store.memory.outline := memory
  have functions := congrArg Machine.functions same
  have functions : m'.functions = m.functions := functions
  have stack := congrArg Machine.stack same
  have stack : m'.stack = m.stack := stack
  have unmoved : m'.target = m.target := Memory.target_of_outline_eq memory
  exact {
    target_eq := unmoved.trans h.target_eq
    width := h.width
    numbered := Memory.numbered_of_outline_eq memory h.numbered
    functions := functions ▸ h.functions
    slots := stack ▸ h.slots }

/-- An action that is run on a machine leaves alone what evaluation relies on, and its answer is as
said, if it does answer. -/
def Yields (target : Target) (m : Machine) (x : Action Machine α) (V : α → Prop) : Prop :=
  ∀ ⦃a m'⦄, x m = (.ok a, m') → m'.Ready target ∧ V a

namespace Yields

variable {x : Action Machine α} {f : α → Action Machine β} {V : α → Prop} {W : β → Prop}

theorem answer {a : α} (ready : m.Ready target) (h : V a) :
    Yields target m (pure a : Action Machine α) V := by
  intro b n run
  obtain ⟨rfl, rfl⟩ := Action.pure_eq_ok_iff.1 run
  exact ⟨ready, h⟩

theorem throw {e : Fault} : Yields target m (throw e : Action Machine α) V := nofun

/-- Where the second action begins, the first one has run. -/
theorem bind (hx : Yields target m x V)
    (hf : ∀ a m', x m = (.ok a, m') → m'.Ready target → V a → Yields target m' (f a) W) :
    Yields target m (x >>= f) W := by
  intro b n run
  obtain ⟨a, t, first, run⟩ := Action.bind_eq_ok_iff.1 run
  obtain ⟨ready, ha⟩ := hx first
  exact hf a t first ready ha run

theorem bindExcept {e : Except Fault α} (hf : ∀ a, e = .ok a → Yields target m (f a) W) :
    Yields target m (Action.ofExcept e >>= f) W := by
  intro b n both
  obtain ⟨a, t, asked, run⟩ := Action.bind_eq_ok_iff.1 both
  obtain ⟨answer, rfl⟩ := Action.ofExcept_eq_iff.1 asked
  exact hf a answer run

theorem bindNeed {c : Bool} {e : Fault} {f : Unit → Action Machine β}
    (hf : c = true → Yields target m (f ()) W) : Yields target m (Action.need c e >>= f) W :=
  .bindExcept fun _ holds => hf (require_eq_ok_iff.1 holds)

theorem bindTarget {f : Target → Action Machine β} (ready : m.Ready target)
    (hf : Yields target m (f target) W) : Yields target m (getTarget >>= f) W := by
  intro b n run
  rw [getTarget_bind, ready.target_eq] at run
  exact hf run

/-- A question to memory changes nothing. -/
theorem ask {g : Memory → Except Fault α} (ready : m.Ready target)
    (h : ∀ a, g m.store.memory = .ok a → V a) : Yields target m (onStore (Store.ask g)) V := by
  intro a n run
  obtain ⟨answer, rfl⟩ := Prod.mk.inj run
  exact ⟨ready, h a answer⟩

/-- What only evaluates leaves all of this alone. -/
theorem of_evaluates {U : α → Prop} (ready : m.Ready target)
    (h : Evaluates (fun _ => True) m x U) : Yields target m x fun _ => True := by
  intro a n run
  obtain ⟨evolved, -⟩ := h.ok (.refl fun _ _ => trivial) run
  exact ⟨ready.of_outline_eq evolved.outline, trivial⟩

theorem offsetInBounds {offset : Int} (ready : m.Ready target) :
    Yields target m (Machine.offsetInBounds p offset) fun q =>
      target.addrInBounds q.addr = .ok true :=
  .ask ready fun q moved => by
    obtain ⟨-, address, -, rfl⟩ := Memory.offsetInBounds_eq_ok_iff.1 moved
    exact ready.target_eq ▸ address

theorem typedLoad (ready : m.Ready target) (regular : place.ty.All (Ty.Regular target)) :
    Yields target m (onStore (Store.typedLoad p place)) fun v => Typed target (v, place.ty) :=
  .ask ready fun v loaded => by
    obtain ⟨data, -, decoded⟩ := Memory.typedLoad_eq_ok_iff.1 loaded
    have decoded : place.ty.decode target data = .ok (some v) := ready.target_eq ▸ decoded
    exact ⟨regular, Ty.wellFormed_of_decode_of_regular regular decoded⟩

theorem expose (ready : m.Ready target) :
    Yields target m (onStore (Store.expose p)) fun addr => addr = p.addr := by
  intro addr n run
  obtain ⟨kept, -⟩ := of_evaluates ready (Evaluates.expose fun _ _ => trivial) run
  obtain ⟨journal, exposed⟩ := onStore_expose p m
  obtain ⟨same, -⟩ := Prod.mk.inj (exposed.symm.trans run)
  exact ⟨kept, (Except.ok.inj same).symm⟩

theorem localPlace (ready : m.Ready target) (name : String) :
    Yields target m (Machine.localPlace name) (Located target) := by
  intro a n run
  obtain ⟨f, t, framed, run⟩ := Action.bind_eq_ok_iff.1 run
  obtain ⟨rfl, rest, stack⟩ := frame_eq_ok_iff.1 framed
  have hf : f ∈ m.stack := stack ▸ List.mem_cons_self
  cases found : f.locals.find? name with
  | none =>
      rw [found] at run
      cases run
  | some p =>
      rw [found] at run
      refine bindExcept (fun place declared => answer ready ?_) run
      exact ready.slots f hf name p place found declared

end Yields

end Machine

namespace Discipline.Keeps

/-! ## Operators -/

open Machine

variable {m : Machine}

/-- An operator on one value keeps the property. -/
theorem evalUnary (keeps : D.Keeps target V) (ready : m.Ready target) (op : UnaryOp) (h : V (v, ty))
    (types : ∀ t ∈ op.ty?, D.types t) : Yields target m (Machine.evalUnary op v ty) V := by
  cases op with
  | neg | bitNot =>
      refine .bindExcept fun ⟨n, t⟩ operand => .bindExcept fun k wrapped => .answer ready ?_
      obtain ⟨rfl, sized, -⟩ := keeps.intOperand h operand
      exact keeps.typed (.int sized (t.canRepresent_of_wrap sized wrapped))
  | not => exact .bindExcept fun b _ => .answer ready (keeps.typed .bool)
  | cast t =>
      refine .bindExcept fun ⟨n, _⟩ _ => .bindExcept fun k wrapped => .answer ready ?_
      have sized : 1 ≤ t.size := (keeps.regular (types _ rfl)).here.int_sized
      exact keeps.typed (.int sized (t.canRepresent_of_wrap sized wrapped))
  | transmute t =>
      refine .bindTarget ready (.bindExcept fun w made => .answer ready ?_)
      have regular := keeps.regular (types t rfl)
      exact keeps.typed ⟨regular, Value.wellFormed_of_transmute regular made⟩
  | expose =>
      cases v with
      | ptr p =>
          refine Yields.bind (.expose ready) fun addr m' _ ready same => ?_
          refine .bindTarget ready (.answer ready ?_)
          rw [same]
          exact keeps.typed (.int ready.width (keeps.address h))
      | _ => exact .throw
  | fromAddr t =>
      refine .bindExcept fun ⟨n, _⟩ _ => .bindTarget ready (.bindExcept fun inBounds _ => ?_)
      refine .bindNeed fun _ => ?_
      refine Yields.bind (.of_evaluates ready (.fromAddr n)) fun p m' _ ready _ => ?_
      refine .bindExcept fun valid tested => .bindNeed fun holds => .answer ready ?_
      exact keeps.typed ⟨keeps.regular (types t rfl), holds ▸ tested⟩

/-- An operator on two values keeps the property of the left one. -/
theorem evalBinary (keeps : D.Keeps target V) (ready : m.Ready target) (op : BinaryOp) (h : V (l, lt))
    (moves : ∀ inbounds, op = .offset inbounds → D.moved lt) :
    Yields target m (Machine.evalBinary op l lt r rt) V := by
  cases op with
  | int op =>
      refine .bindExcept fun ⟨a, t⟩ left => .bindExcept fun ⟨b, _⟩ _ => ?_
      refine .bindExcept fun n computed => .answer ready ?_
      obtain ⟨rfl, sized, fits⟩ := keeps.intOperand h left
      exact keeps.typed (.int sized (op.canRepresent_of_eval sized fits computed))
  | rel op =>
      intro a n run
      obtain ⟨computed, rfl⟩ := Action.ofExcept_eq_iff.1 run
      obtain ⟨regular, wellFormed⟩ := RelOp.wellFormed_of_eval computed
      exact ⟨ready, keeps.typed ⟨regular, wellFormed⟩⟩
  | bool op =>
      exact .bindExcept fun a _ => .bindExcept fun b _ => .answer ready (keeps.typed .bool)
  | offset inbounds =>
      have moved := moves inbounds rfl
      cases l with
      | ptr p =>
          refine .bindExcept fun ⟨n, _⟩ _ => ?_
          cases inbounds with
          | true =>
              exact Yields.bind (.offsetInBounds ready) fun q m' _ ready address =>
                .answer ready (keeps.moved moved h address)
          | false =>
              refine .bindTarget ready (.bindExcept fun q shifted => .answer ready ?_)
              obtain ⟨addr, wrapped, same⟩ := bind_eq_ok_iff.1 shifted
              obtain rfl := Except.ok.inj same
              exact keeps.moved moved h (target.addrInBounds_of_wrapAddr ready.width wrapped)
      | _ => exact .throw

/-! ## Expressions -/

mutual

/-- What a value expression that obeys the discipline yields has the property. -/
theorem evalValue (keeps : D.Keeps target V) : ∀ (e : ValueExpr) {m : Machine},
    m.Ready target → e.Obeys D m → Yields target m (Machine.evalValue e) V
  | .constant v ty, m, ready, obeys => by
      rw [Machine.evalValue]
      exact .answer ready (keeps.typed ⟨keeps.regular obeys.1, ready.target_eq ▸ obeys.2⟩)
  | .function name, m, ready, _ => by
      rw [Machine.evalValue]
      intro a n run
      obtain ⟨m₀, t, got, run⟩ := Action.bind_eq_ok_iff.1 run
      obtain ⟨⟨⟩, rfl⟩ := Prod.mk.inj got
      cases found : m.functions.find? name with
      | none =>
          rw [found] at run
          cases run
      | some addr =>
          rw [found] at run
          obtain ⟨rfl, rfl⟩ := Action.pure_eq_ok_iff.1 run
          obtain ⟨positive, below⟩ := ready.functions _ (Table.mem_entries_of_find? found)
          exact ⟨ready, keeps.typed (.function ready.width positive below)⟩
  | .tuple parts ty, m, ready, ⟨types, obeys, takes⟩ => by
      rw [Machine.evalValue]
      refine .bindExcept fun _ _ => (keeps.evalAll parts ready obeys).bind ?_
      intro vs m' run ready each
      exact .answer ready (keeps.tuple (keeps.regular types) each (takes vs m' run))
  | .union field operand ty, m, ready, ⟨types, obeys⟩ => by
      rw [Machine.evalValue]
      refine (keeps.evalValue operand ready obeys).bind fun ⟨v, _⟩ m' _ ready _ => ?_
      refine .bindTarget ready (.bindExcept fun w made => .answer ready ?_)
      -- whatever the operand is, its bytes are cut into chunks of the lengths that they have to have
      have regular := keeps.regular types
      exact keeps.typed ⟨regular, UnionTy.wellFormed_of_ofField regular.here made⟩
  | .variant d payload ty, m, ready, ⟨types, obeys, same⟩ => by
      rw [Machine.evalValue]
      refine (keeps.evalValue payload ready obeys).bind fun ⟨v, t⟩ m' run ready h => ?_
      refine .bindExcept fun variant found => .answer ready ?_
      exact keeps.variant (keeps.regular types) found (same v t m' run variant found ▸ h)
  | .discriminant p, m, ready, obeys => by
      rw [Machine.evalValue]
      refine (keeps.evalPlace p ready obeys).bind fun ⟨p, ⟨ty, align⟩⟩ m' _ ready located => ?_
      cases ty with
      | enum e =>
          refine Yields.bind (.ask (V := fun _ => True) ready fun _ _ => trivial) ?_
          intro data m' _ ready _
          refine .bindTarget ready ?_
          cases decoded : e.discriminator.decode target data with
          | none => exact .throw
          | some d =>
              refine .answer ready (keeps.typed ⟨located.regular.discriminant, ?_⟩)
              exact located.regular.here.discriminants_fit d
                (Discriminator.leaf_of_decode decoded)
      | _ => exact .throw
  | .load p destructive, m, ready, obeys => by
      rw [Machine.evalValue]
      refine (keeps.evalPlace p ready obeys).bind fun ⟨p, place⟩ m' _ ready located => ?_
      refine Yields.bind (.typedLoad ready located.regular) fun v m' _ ready typed => ?_
      cases destructive with
      | false => exact .answer ready (keeps.typed typed)
      | true =>
          -- to empty the place afterwards does nothing to what was loaded
          refine Yields.bind (V := fun _ => True) ?_ fun _ m' _ ready _ =>
            .answer ready (keeps.typed typed)
          exact .of_evaluates ready (evaluates_deinit ready.numbered fun _ _ => trivial)
  | .addrOf p ty, m, ready, ⟨taken, obeys⟩ => by
      rw [Machine.evalValue]
      exact (keeps.evalPlace p ready obeys).bind fun ⟨p, _⟩ m' _ ready located =>
        .answer ready (keeps.taken taken located.address)
  | .createRef p ty, m, ready, ⟨types, obeys⟩ => by
      rw [Machine.evalValue]
      refine (keeps.evalPlace p ready obeys).bind fun ⟨p, _⟩ m' _ ready _ => ?_
      -- unlike an address that is taken, a reference is tested where it is made
      refine .bindTarget ready (.bindExcept fun valid tested => .bindNeed fun holds => ?_)
      exact .answer ready (keeps.typed ⟨keeps.regular types, holds ▸ tested⟩)
  | .unary op operand, m, ready, ⟨types, obeys⟩ => by
      rw [Machine.evalValue]
      exact (keeps.evalValue operand ready obeys).bind fun ⟨v, ty⟩ m' _ ready h =>
        keeps.evalUnary ready op h types
  | .binary op left right, m, ready, ⟨obeys, rest⟩ => by
      rw [Machine.evalValue]
      refine (keeps.evalValue left ready obeys).bind fun ⟨l, lt⟩ m' run ready h => ?_
      obtain ⟨obeys, moves⟩ := rest l lt m' run
      exact (keeps.evalValue right ready obeys).bind fun ⟨r, rt⟩ m' _ ready _ =>
        keeps.evalBinary ready op h moves

/-- What a place expression that obeys the discipline yields has an address. -/
theorem evalPlace (keeps : D.Keeps target V) : ∀ (p : PlaceExpr) {m : Machine},
    m.Ready target → p.Obeys D m → Yields target m (Machine.evalPlace p) (Located target)
  | .var name, m, ready, _ => by
      rw [Machine.evalPlace]
      exact .localPlace ready name
  | .deref operand place, m, ready, ⟨types, obeys⟩ => by
      rw [Machine.evalPlace]
      refine (keeps.evalValue operand ready obeys).bind fun ⟨v, _⟩ m' _ ready h => ?_
      cases v with
      | ptr p => exact .answer ready ⟨keeps.regular types, keeps.address h⟩
      | _ => exact .throw
  | .field root i, m, ready, obeys => by
      rw [Machine.evalPlace]
      refine (keeps.evalPlace root ready obeys).bind fun ⟨p, ⟨ty, align⟩⟩ m' _ ready located => ?_
      refine .bindExcept fun f found => Yields.bind (.offsetInBounds ready) ?_
      exact fun q m' _ ready address => .answer ready ⟨located.regular.of_fieldAt found, address⟩
  | .index root i, m, ready, ⟨obeys, rest⟩ => by
      rw [Machine.evalPlace]
      refine (keeps.evalPlace root ready obeys).bind fun ⟨p, ⟨ty, align⟩⟩ m' run ready located => ?_
      refine (keeps.evalValue i ready (rest _ m' run)).bind fun ⟨n, _⟩ m' _ ready _ => ?_
      refine .bindTarget ready (.bindExcept fun ⟨distance, elem, size⟩ found => ?_)
      refine Yields.bind (.offsetInBounds ready) fun q m' _ ready address => .answer ready ?_
      exact ⟨located.regular.of_elementOffset found, address⟩
  | .downcast root d, m, ready, obeys => by
      rw [Machine.evalPlace]
      refine (keeps.evalPlace root ready obeys).bind fun ⟨p, ⟨ty, align⟩⟩ m' _ ready located => ?_
      cases ty with
      | enum e =>
          refine .bindExcept fun variant found => .answer ready ?_
          exact ⟨located.regular.of_variantAt found, located.address⟩
      | _ => exact .throw

theorem evalAll (keeps : D.Keeps target V) : ∀ (es : List ValueExpr) {m : Machine},
    m.Ready target → ValueExpr.allObey D es m →
    Yields target m (Machine.evalAll es) fun vs => ∀ a ∈ vs, V a
  | [], m, ready, _ => .answer ready nofun
  | e :: es, m, ready, ⟨obeys, rest⟩ => by
      rw [Machine.evalAll]
      refine (keeps.evalValue e ready obeys).bind fun a m' run ready h => ?_
      refine (keeps.evalAll es ready (rest a m' run)).bind fun vs m' _ ready all => ?_
      exact .answer ready (List.forall_mem_cons.2 ⟨h, all⟩)

end

end Discipline.Keeps

namespace Machine

/-! ## Reachable machines -/

variable {m : Machine} {program : Program} {chooser : Chooser} {predictor : Predictor}

/-- The type that a local of a reachable machine is declared with is as the program's are. -/
theorem Reachable.declares {P : Ty → Prop} (h : Reachable program target chooser predictor m)
    (declared : program.Declares P) (hf : f ∈ m.stack) (localTy : f.localTy name = .ok place) :
    P place.ty := by
  obtain ⟨-, m₀, -, code, -, founded⟩ := h.founded
  unfold Frame.localTy at localTy
  cases declaration : f.function.locals.find? name with
  | none => simp [declaration] at localTy
  | some declaredAs =>
      simp only [declaration, Except.ok.injEq] at localTy
      have has := code ▸ founded.stack f hf
      exact localTy ▸ declared f.function has _ (Table.mem_entries_of_find? declaration)

/-- A reachable machine has all that evaluation relies on, if the locals of its program are declared
with regular types. -/
theorem Reachable.ready (h : Reachable program target chooser predictor m)
    (declared : program.Declares (Ty.All (Ty.Regular target))) : m.Ready target := by
  obtain ⟨width, m₀, grounds, -, runsOn, founded⟩ := h.founded
  have same : m.target = target := founded.target.trans runsOn
  refine ⟨same, width, founded.laid.numbered, ?_, ?_⟩
  · intro e he
    rw [founded.functions] at he
    exact runsOn ▸ grounds.address he
  · intro f hf name p place found localTy
    obtain ⟨i, hi⟩ := List.mem_iff_getElem?.1 hf
    obtain ⟨place', a, house⟩ := h.housed.houses ⟨hi, found⟩
    constructor
    · exact h.declares declared hf localTy
    · have placed := founded.laid.placed a (Memory.mem_allocations_of_allocation house.found)
      have placed : a.Placed target := same ▸ placed
      have positive := placed.positive
      have nonneg := placed.nonneg
      have below := placed.stop_lt_limit
      rw [Allocation.stop] at below
      rw [house.base, Target.addrInBounds_eq width]
      refine congrArg Except.ok (decide_eq_true ?_)
      exact ⟨Int.le_of_lt positive, show a.addr < target.limit by omega⟩

end Machine

end AbstractMachine
