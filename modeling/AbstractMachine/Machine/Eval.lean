/-
# AbstractMachine.Machine.Eval — evaluating expressions

A value expression yields a value and its type, a place expression a pointer and what is known of
the place: its type, and an alignment. Evaluation goes from left to right and from the inside out,
and may change memory, since a destructive load empties the place it reads.

A projection moves the pointer of its root inside the root's allocation. How well the result is
aligned follows from the root's alignment and the distance. A place that is only computed is not
accessed: no check is made that it holds anything.
-/
import AbstractMachine.Machine.Operator

namespace AbstractMachine

/-! ## Parts of types -/

/-- The element at a position that has to be in the list. -/
def elementAt {α : Type} (xs : List α) (i : Int) (missing : Defect) : Except Fault α :=
  match if 0 ≤ i then xs[i.toNat]? else none with
  | some x => .ok x
  | none => .error (.defect missing)

/-- The field of a union with this number. -/
def UnionTy.fieldAt (u : UnionTy) (i : Int) : Except Fault Field :=
  elementAt u.fields i (.noUnionField i)

/-- The variant of an enum with this number. -/
def EnumTy.variantAt (e : EnumTy) (d : Int) : Except Fault Variant :=
  elementAt e.variants d (.noVariant d)

/-- The field of a tuple or union with this number. -/
def Ty.fieldAt : Ty → Int → Except Fault Field
  | .tuple fields _, i => elementAt fields i (.noTupleField i)
  | .union u, i => u.fieldAt i
  | ty, _ => .error (.defect (.fieldOf ty))

/-- Fail unless a type is that of a tuple or array. -/
def Ty.requireTuple : Ty → Except Fault Unit
  | .tuple _ _ => .ok ()
  | .array _ _ => .ok ()
  | ty => .error (.defect (.tupleAt ty))

/-- The union value in which one field is written and all else is uninitialised. -/
def UnionTy.ofField (target : Target) (u : UnionTy) (i : Int) (v : Value) : Except Fault Value := do
  let f ← u.fieldAt i
  let bytes := Slice.overlay (AbsByte.blank u.size) f.offset (← f.ty.encode target v)
  return .union (u.chunks.map fun c => Slice.read bytes c.start (c.start + c.size))

/-- The distance of an array element, its type and its size. -/
def Ty.elementOffset (target : Target) (ty : Ty) (i : Value) : Except Fault (Int × Ty × Int) := do
  match ty, i with
  | .array elem count, .int n => do
      require (0 ≤ n && n < count) (.undefined .indexOutOfBounds)
      return (n * elem.byteSize target, elem, elem.byteSize target)
  | .array _ _, v => throw (.defect (.indexBy v))
  | ty, _ => throw (.defect (.indexOf ty))

namespace Machine

mutual

/-- The value of an expression, and its type. -/
def evalValue : ValueExpr → Action Machine (Value × Ty)
  | .constant v ty => return (v, ty)
  | .function name => do
      match (← get).functions.find? name with
      | some addr => return (.ptr ⟨addr, none⟩, .ptr .fn)
      | none => throw (.defect (.noFunction name))
  | .tuple parts ty => do
      Action.ofExcept ty.requireTuple
      let vs ← evalAll parts
      return (.tuple (vs.map (·.1)), ty)
  | .union field operand ty => do
      let (v, _) ← evalValue operand
      return (← Action.ofExcept (ty.ofField (← getTarget) field v), .union ty)
  | .variant d payload ty => do
      let (v, _) ← evalValue payload
      let _ ← Action.ofExcept (ty.variantAt d)
      return (.variant d v, .enum ty)
  | .discriminant place => do
      let (p, ⟨ty, align⟩) ← evalPlace place
      match ty with
      | .enum e => do
          let data ← onStore (Store.load p e.size align)
          match e.discriminator.decode (← getTarget) data with
          | some d => return (.int d, e.discriminantTy)
          | none => throw (.undefined .invalidDiscriminant)
      | ty => throw (.defect (.discriminantOf ty))
  | .load place destructive => do
      let (p, place) ← evalPlace place
      let v ← onStore (Store.typedLoad p place)
      if destructive then onStore (Store.deinit p place)
      return (v, place.ty)
  | .addrOf place ty => do
      let (p, _) ← evalPlace place
      return (.ptr p, ty)
  | .createRef place ty => do
      let (p, _) ← evalPlace place
      let valid ← Action.ofExcept (ty.wellFormed (← getTarget) (.ptr p))
      Action.need valid (.undefined .invalidReference)
      return (.ptr p, ty)
  | .unary op operand => do
      let (v, ty) ← evalValue operand
      evalUnary op v ty
  | .binary op left right => do
      let (l, lt) ← evalValue left
      let (r, rt) ← evalValue right
      evalBinary op l lt r rt

/-- The location of a place, and what is known of it. -/
def evalPlace : PlaceExpr → Action Machine (Pointer × PlaceTy)
  | .var name => localPlace name
  | .deref operand place => do
      let (v, _) ← evalValue operand
      match v with
      | .ptr p => return (p, place)
      | v => throw (.defect (.derefOf v))
  | .field root i => do
      let (p, ⟨ty, align⟩) ← evalPlace root
      let f ← Action.ofExcept (ty.fieldAt i)
      return (← offsetInBounds p f.offset, { ty := f.ty, align := restrictAlign align f.offset })
  | .index root i => do
      let (p, ⟨ty, align⟩) ← evalPlace root
      let (i, _) ← evalValue i
      let (distance, elem, size) ← Action.ofExcept (ty.elementOffset (← getTarget) i)
      return (← offsetInBounds p distance, { ty := elem, align := restrictAlign align size })
  | .downcast root d => do
      let (p, ⟨ty, align⟩) ← evalPlace root
      match ty with
      | .enum e => return (p, { ty := (← Action.ofExcept (e.variantAt d)).ty, align })
      | ty => throw (.defect (.downcastOf ty))

/-- The values of expressions, from left to right. -/
def evalAll : List ValueExpr → Action Machine (List (Value × Ty))
  | [] => return []
  | e :: es => do
      let v ← evalValue e
      return v :: (← evalAll es)

end

end Machine

end AbstractMachine
