/-
# AbstractMachine.Proofs.Machine.Typing — a value is one of the type that comes with it

Evaluating an expression yields a value and a type, and nothing compares the two. If the type were
wrong, the next store would write bytes that stand for something else.

It is right if the expression `Fits`: its constants are values of their types, its tuples are made of
parts of the right types, an address that is taken is a raw pointer and only raw pointers are moved.
This is the discipline under which nothing that the machine makes without looking has to be looked at:
a raw pointer may have any address.
-/
import AbstractMachine.Proofs.Machine.Answers

namespace AbstractMachine

/-! ## Expressions that fit -/

mutual

/-- Evaluated in this state, the parts of a value expression have the types that they have to have,
and the types it is written with are as said. -/
def ValueExpr.Fits (P : Ty → Prop) : ValueExpr → Machine → Prop
  | .constant v ty, m => P ty ∧ ty.wellFormed m.target v = .ok true
  | .function _, _ => True
  | .tuple parts ty, m => P ty ∧ ValueExpr.allFit P parts m ∧
      ∀ vs m', Machine.evalAll parts m = (.ok vs, m') → ty.Takes (vs.map (·.2))
  | .union _ operand ty, m => P (.union ty) ∧ operand.Fits P m
  | .variant d payload ty, m => P (.enum ty) ∧ payload.Fits P m ∧
      ∀ v t m', Machine.evalValue payload m = (.ok (v, t), m') →
        ∀ variant, ty.variantAt d = .ok variant → t = variant.ty
  | .discriminant place, m => place.Fits P m
  | .load place _, m => place.Fits P m
  | .addrOf place ty, m => ty = .ptr .raw ∧ place.Fits P m
  | .createRef place ty, m => P ty ∧ place.Fits P m
  | .unary op operand, m => (∀ t ∈ op.ty?, P t) ∧ operand.Fits P m
  | .binary op left right, m => left.Fits P m ∧
      ∀ v t m', Machine.evalValue left m = (.ok (v, t), m') →
        right.Fits P m' ∧ ∀ inbounds, op = .offset inbounds → t = .ptr .raw

/-- Evaluated in this state, the parts of a place expression have the types that they have to have,
and the types it is written with are as said. -/
def PlaceExpr.Fits (P : Ty → Prop) : PlaceExpr → Machine → Prop
  | .var _, _ => True
  | .deref operand place, m => P place.ty ∧ operand.Fits P m
  | .field root _, m => root.Fits P m
  | .index root i, m => root.Fits P m ∧
      ∀ a m', Machine.evalPlace root m = (.ok a, m') → i.Fits P m'
  | .downcast root _, m => root.Fits P m

def ValueExpr.allFit (P : Ty → Prop) : List ValueExpr → Machine → Prop
  | [], _ => True
  | e :: es, m => e.Fits P m ∧
      ∀ a m', Machine.evalValue e m = (.ok a, m') → ValueExpr.allFit P es m'

end

/-- Expressions are written with types as said, and only raw pointers are made of addresses. -/
def Discipline.raw (P : Ty → Prop) : Discipline where
  types := P
  taken := (· = .ptr .raw)
  moved := (· = .ptr .raw)

section

variable {P : Ty → Prop}

mutual

/-- An expression that fits obeys the discipline of raw pointers. -/
theorem ValueExpr.Fits.obeys : ∀ (e : ValueExpr) {m : Machine}, e.Fits P m → e.Obeys (.raw P) m
  | .constant _ _, _, fits => fits
  | .function _, _, _ => trivial
  | .tuple parts _, _, ⟨types, fits, takes⟩ => ⟨types, ValueExpr.allFit.obeys parts fits, takes⟩
  | .union _ operand _, _, ⟨types, fits⟩ => ⟨types, ValueExpr.Fits.obeys operand fits⟩
  | .variant _ payload _, _, ⟨types, fits, same⟩ =>
      ⟨types, ValueExpr.Fits.obeys payload fits, same⟩
  | .discriminant place, _, fits => PlaceExpr.Fits.obeys place fits
  | .load place _, _, fits => PlaceExpr.Fits.obeys place fits
  | .addrOf place _, _, ⟨taken, fits⟩ => ⟨taken, PlaceExpr.Fits.obeys place fits⟩
  | .createRef place _, _, ⟨types, fits⟩ => ⟨types, PlaceExpr.Fits.obeys place fits⟩
  | .unary _ operand, _, ⟨types, fits⟩ => ⟨types, ValueExpr.Fits.obeys operand fits⟩
  | .binary _ left right, _, ⟨fits, rest⟩ => by
      refine ⟨ValueExpr.Fits.obeys left fits, fun v t m' run => ?_⟩
      obtain ⟨fits, moves⟩ := rest v t m' run
      exact ⟨ValueExpr.Fits.obeys right fits, moves⟩

theorem PlaceExpr.Fits.obeys : ∀ (p : PlaceExpr) {m : Machine}, p.Fits P m → p.Obeys (.raw P) m
  | .var _, _, _ => trivial
  | .deref operand _, _, ⟨types, fits⟩ => ⟨types, ValueExpr.Fits.obeys operand fits⟩
  | .field root _, _, fits => PlaceExpr.Fits.obeys root fits
  | .index root i, _, ⟨fits, rest⟩ =>
      ⟨PlaceExpr.Fits.obeys root fits, fun a m' run => ValueExpr.Fits.obeys i (rest a m' run)⟩
  | .downcast root _, _, fits => PlaceExpr.Fits.obeys root fits

theorem ValueExpr.allFit.obeys : ∀ (es : List ValueExpr) {m : Machine},
    ValueExpr.allFit P es m → ValueExpr.allObey (.raw P) es m
  | [], _, _ => trivial
  | e :: es, _, ⟨fits, rest⟩ =>
      ⟨ValueExpr.Fits.obeys e fits, fun a m' run => ValueExpr.allFit.obeys es (rest a m' run)⟩

end

end

variable {target : Target}

/-- Where only raw pointers are made of addresses, values are of the types that come with them. -/
theorem Typed.keeps : (Discipline.raw (Ty.All (Ty.Regular target))).Keeps target (Typed target) where
  regular := id
  typed := id
  int := id
  address := Typed.address
  taken := by
    rintro p _ rfl address
    exact .raw address
  moved := by
    rintro p q _ rfl - address
    exact .raw address
  tuple := Typed.tuple
  variant := Typed.variant

/-! ## Reachable machines -/

namespace Machine

variable {m : Machine} {program : Program} {chooser : Chooser} {predictor : Predictor}

/-- A value expression that fits yields a value of the type that comes with it. -/
theorem yields_evalValue (e : ValueExpr) (ready : m.Ready target)
    (fits : e.Fits (Ty.All (Ty.Regular target)) m) : Yields target m (evalValue e) (Typed target) :=
  Typed.keeps.evalValue e ready (ValueExpr.Fits.obeys e fits)

/-- A place expression that fits yields a place that has an address. -/
theorem yields_evalPlace (p : PlaceExpr) (ready : m.Ready target)
    (fits : p.Fits (Ty.All (Ty.Regular target)) m) : Yields target m (evalPlace p) (Located target) :=
  Typed.keeps.evalPlace p ready (PlaceExpr.Fits.obeys p fits)

/-- Evaluation is sound: in a reachable state of a program whose types are regular all through, a
value expression that fits yields a value of the type that comes with it, and a place expression
that fits a pointer with an address. -/
theorem typed_of_reachable (h : Reachable program target chooser predictor m)
    (declared : program.Declares (Ty.All (Ty.Regular target))) :
    (∀ e v ty m', e.Fits (Ty.All (Ty.Regular target)) m → evalValue e m = (.ok (v, ty), m') →
      ty.wellFormed target v = .ok true) ∧
    ∀ p q place m', p.Fits (Ty.All (Ty.Regular target)) m →
      evalPlace p m = (.ok (q, place), m') →
      ∃ limit, target.addrLimit = .ok limit ∧ 0 ≤ q.addr ∧ q.addr < limit := by
  have ready := h.ready declared
  constructor
  · intro e v ty m' fits run
    exact (yields_evalValue e ready fits run).2.wellFormed
  · intro p q place m' fits run
    have address := (yields_evalPlace p ready fits run).2.address
    rw [Target.addrInBounds_eq ready.width, Except.ok.injEq, decide_eq_true_eq] at address
    exact ⟨target.limit, Target.addrLimit_eq ready.width, address⟩

/-- The program in which a local of this type lives for the time of a step. -/
def holding (ty : Ty) : Program where
  functions := ⟨[("main",
    { oneLocalMain with locals := ⟨[("x", ⟨ty, 1⟩), ("ret", ⟨.tuple [] 0, 1⟩)]⟩ })]⟩

theorem declares_holding {P : Ty → Prop} (h : P ty) (unit : P (.tuple [] 0)) :
    (holding ty).Declares P := by
  rintro f ⟨name, hf⟩ d hd
  obtain rfl := congrArg Prod.snd (List.mem_singleton.1 hf)
  rcases List.mem_cons.1 hd with rfl | hd
  · exact h
  · rw [List.mem_singleton.1 hd]
    exact unit

/-- The state in which the local lives. -/
def whileLive (ty : Ty) : Machine := afterSteps (holding ty) 1

/-- A number and a pointer. -/
def numberAndPointer : Ty :=
  .tuple [⟨0, .int ⟨false, 1⟩⟩, ⟨8, .ptr .raw⟩] 16

/-- A sum that wraps around, and the address of the local. -/
def sumAndAddress : ValueExpr :=
  .tuple [.binary (.int .add) (.int 200 (.int ⟨false, 1⟩)) (.int 100 (.int ⟨false, 1⟩)),
    .addrOf (.var "x") (.ptr .raw)] numberAndPointer

/-- While a local lives, a sum and the address of the local make up a tuple of the right type. -/
theorem typed_sumAndAddress :
    (evalValue sumAndAddress (whileLive .bool)).1 =
        .ok (.tuple [.int 44, .ptr ⟨3, some ⟨2⟩⟩], numberAndPointer) ∧
      numberAndPointer.wellFormed ⟨8, .little⟩ (.tuple [.int 44, .ptr ⟨3, some ⟨2⟩⟩]) = .ok true ∧
      ∃ limit, Target.addrLimit ⟨8, .little⟩ = .ok limit ∧ (0 : Int) ≤ 3 ∧ 3 < limit := by
  have reachable : Reachable (holding .bool) ⟨8, .little⟩ inTurn .standard (whileLive .bool) :=
    .next (.begun rfl) rfl
  have byte : (Ty.int ⟨false, 1⟩).All (Ty.Regular ⟨8, .little⟩) := Ty.all_regular_int (by decide)
  have regular : numberAndPointer.All (Ty.Regular ⟨8, .little⟩) :=
    .intro Ty.regular_tuple (List.forall_mem_cons.2
      ⟨byte, List.forall_mem_singleton.2 Ty.all_regular_ptr⟩)
  obtain ⟨values, places⟩ := typed_of_reachable reachable
    (declares_holding Ty.all_regular_bool (.of_parts_eq_nil rfl Ty.regular_tuple))
  refine ⟨rfl, values sumAndAddress _ _ _ ⟨regular, ⟨?_, ?_⟩, ?_⟩ rfl, ?_⟩
  · refine ⟨⟨byte, rfl⟩, fun v t m' run => ?_⟩
    cases run
    exact ⟨⟨byte, rfl⟩, nofun⟩
  · intro a m' run
    cases run
    exact ⟨⟨rfl, trivial⟩, fun _ _ _ => trivial⟩
  · intro vs m' run
    cases run
    rfl
  · exact places (.var "x") ⟨3, some ⟨2⟩⟩ _ _ trivial rfl

/-- A local is declared with a type that is tidy, and whose discriminants fit, but what it holds in a
reachable state is no value of that type. -/
def Misfits (ty : Ty) (v : Value) : Prop :=
  let fine := Ty.All fun t => t.Tidy ⟨8, .little⟩ ∧ t.DiscriminantsFit ⟨8, .little⟩
  Reachable (holding ty) ⟨8, .little⟩ inTurn .standard (whileLive ty) ∧ (holding ty).Declares fine ∧
    (ValueExpr.load (.var "x") false).Fits fine (whileLive ty) ∧
    (evalValue (.load (.var "x") false) (whileLive ty)).1 = .ok (v, ty) ∧
    ty.wellFormed ⟨8, .little⟩ v = .ok false

/-- Counts and the sizes of chunks matter: an array with less than no elements has no values, nor
does a union with a chunk of less than no bytes, and still both can be loaded. -/
theorem misfits_of_negative :
    Misfits (.array (.tuple [] 0) (-1)) (.tuple []) ∧
      Misfits (.union ⟨[], [⟨1, -1⟩], 1⟩) (.union [[]]) := by
  have unit : (Ty.tuple [] 0).All
      fun t => t.Tidy ⟨8, .little⟩ ∧ t.DiscriminantsFit ⟨8, .little⟩ :=
    .of_parts_eq_nil rfl ⟨Ty.tidy_tuple_iff.2 ⟨nofun, .nil⟩, trivial⟩
  constructor
  · refine ⟨.next (.begun rfl) rfl, declares_holding ?_ unit, trivial, rfl, rfl⟩
    exact .intro ⟨Ty.tidy_array, trivial⟩ (List.forall_mem_singleton.2 unit)
  · refine ⟨.next (.begun rfl) rfl, declares_holding ?_ unit, trivial, rfl, rfl⟩
    refine .of_parts_eq_nil rfl ⟨Ty.tidy_union_iff.2 ⟨?_, List.pairwise_singleton _ _⟩, trivial⟩
    rintro c hc i ⟨above, below⟩
    rw [List.mem_singleton.1 hc] at above below
    simp only at above below
    omega

end Machine

end AbstractMachine
