/-
# AbstractMachine.Expr — values and places, as a program writes them

A value expression stands for a value and its type; a place expression for a location in memory and
what is known of it. They contain each other: a place may be found by a pointer that was computed,
and a value may be read from a place. Nothing forces the types in an expression to agree with each
other. What has to agree is checked when it is evaluated, as far as it has to be.

`Expr.induction` is the principle that hides the nesting: to show something of all expressions, show
it of each form from its parts.
-/
import AbstractMachine.Operator
import AbstractMachine.Value

namespace AbstractMachine

mutual

/-- Expressions that stand for a value. -/
inductive ValueExpr where
  | constant (value : Value) (ty : Ty)
  /-- The address of a function. -/
  | function (name : String)
  /-- A tuple or an array of the values of its parts. -/
  | tuple (parts : List ValueExpr) (ty : Ty)
  /-- A union with one field written. -/
  | union (field : Int) (operand : ValueExpr) (ty : UnionTy)
  /-- An enum with one variant active. -/
  | variant (discriminant : Int) (payload : ValueExpr) (ty : EnumTy)
  /-- The number of the active variant of an enum. -/
  | discriminant (place : PlaceExpr)
  /-- What a place holds; a destructive load leaves the place uninitialised. -/
  | load (place : PlaceExpr) (destructive : Bool)
  /-- The address of a place, unchecked. -/
  | addrOf (place : PlaceExpr) (ty : Ty)
  /-- The address of a place, which has to be a valid value of the type. -/
  | createRef (place : PlaceExpr) (ty : Ty)
  | unary (op : UnaryOp) (operand : ValueExpr)
  | binary (op : BinaryOp) (left right : ValueExpr)

/-- Expressions that stand for a place. -/
inductive PlaceExpr where
  | var (name : String)
  | deref (operand : ValueExpr) (place : PlaceTy)
  | field (root : PlaceExpr) (index : Int)
  | index (root : PlaceExpr) (index : ValueExpr)
  /-- An enum seen as the payload of one of its variants. -/
  | downcast (root : PlaceExpr) (discriminant : Int)

end

/-! ## Induction -/

section Induction

set_option linter.unusedSectionVars false

variable {value : ValueExpr → Prop} {place : PlaceExpr → Prop}
  (constant : ∀ v ty, value (.constant v ty)) (function : ∀ name, value (.function name))
  (tuple : ∀ (parts : List ValueExpr) ty, (∀ e ∈ parts, value e) → value (.tuple parts ty))
  (union : ∀ field operand ty, value operand → value (.union field operand ty))
  (variant : ∀ d payload ty, value payload → value (.variant d payload ty))
  (discriminant : ∀ p, place p → value (.discriminant p))
  (load : ∀ p destructive, place p → value (.load p destructive))
  (addrOf : ∀ p ty, place p → value (.addrOf p ty))
  (createRef : ∀ p ty, place p → value (.createRef p ty))
  (unary : ∀ op operand, value operand → value (.unary op operand))
  (binary : ∀ op left right, value left → value right → value (.binary op left right))
  (var : ∀ name, place (.var name)) (deref : ∀ operand p, value operand → place (.deref operand p))
  (field : ∀ root i, place root → place (.field root i))
  (index : ∀ root i, place root → value i → place (.index root i))
  (downcast : ∀ root d, place root → place (.downcast root d))

include constant function tuple union variant discriminant load addrOf createRef unary binary var
  deref field index downcast

mutual

/-- To show something of all value expressions, show it of each form from its parts. -/
theorem ValueExpr.induction : ∀ e : ValueExpr, value e
  | .constant v ty => constant v ty
  | .function name => function name
  | .tuple parts ty => tuple parts ty (ValueExpr.induction_parts parts)
  | .union f operand ty => union f operand ty (ValueExpr.induction operand)
  | .variant d payload ty => variant d payload ty (ValueExpr.induction payload)
  | .discriminant p => discriminant p (PlaceExpr.induction p)
  | .load p destructive => load p destructive (PlaceExpr.induction p)
  | .addrOf p ty => addrOf p ty (PlaceExpr.induction p)
  | .createRef p ty => createRef p ty (PlaceExpr.induction p)
  | .unary op operand => unary op operand (ValueExpr.induction operand)
  | .binary op left right =>
      binary op left right (ValueExpr.induction left) (ValueExpr.induction right)

/-- To show something of all place expressions, show it of each form from its parts. -/
theorem PlaceExpr.induction : ∀ p : PlaceExpr, place p
  | .var name => var name
  | .deref operand p => deref operand p (ValueExpr.induction operand)
  | .field root i => field root i (PlaceExpr.induction root)
  | .index root i => index root i (PlaceExpr.induction root) (ValueExpr.induction i)
  | .downcast root d => downcast root d (PlaceExpr.induction root)

theorem ValueExpr.induction_parts : ∀ parts : List ValueExpr, ∀ e ∈ parts, value e
  | [], _, h => nomatch h
  | e :: parts, e', h => by
      rcases List.mem_cons.1 h with h | h
      · exact h ▸ ValueExpr.induction e
      · exact ValueExpr.induction_parts parts e' h

end

end Induction

/-! ## Constants -/

namespace ValueExpr

/-- An integer. -/
def int (n : Int) (ty : Ty) : ValueExpr := .constant (.int n) ty

/-- A boolean. -/
def bool (b : Bool) : ValueExpr := .constant (.bool b) .bool

/-- A pointer to a fixed address, without provenance. -/
def address (addr : Int) (ty : Ty) : ValueExpr := .constant (.ptr ⟨addr, none⟩) ty

/-- The value without content. -/
def unit : ValueExpr := .constant .unit (.tuple [] 0)

end ValueExpr

end AbstractMachine
