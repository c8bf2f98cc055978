/-
# AbstractMachine.Program.Kinds — the kinds of nodes in a program

Nodes come in families, and the nodes of a family in kinds. `nodeKinds` lists the kinds that a
machine can execute, sorted by name; the lemmas say that no node is of any other kind.
-/
import AbstractMachine.Program

namespace AbstractMachine

/-- The kind of a value expression. -/
def ValueExpr.kind : ValueExpr → String
  | .constant _ _ => "Constant"
  | .function _ => "FnPointerConstant"
  | .tuple _ _ => "TupleExpr"
  | .union _ _ _ => "UnionExpr"
  | .variant _ _ _ => "VariantExpr"
  | .discriminant _ => "GetDiscriminant"
  | .load _ _ => "Load"
  | .addrOf _ _ => "AddrOf"
  | .createRef _ _ => "CreateRef"
  | .unary _ _ => "UnOp"
  | .binary _ _ _ => "BinOp"

/-- The kind of a place expression. -/
def PlaceExpr.kind : PlaceExpr → String
  | .var _ => "Local"
  | .deref _ _ => "Deref"
  | .field _ _ => "Field"
  | .index _ _ => "Index"
  | .downcast _ _ => "Downcast"

/-- The kind of a statement. -/
def Statement.kind : Statement → String
  | .assign _ _ => "Assign"
  | .finalize _ => "Finalize"
  | .live _ => "StorageLive"
  | .dead _ => "StorageDead"
  | .setDiscriminant _ _ => "SetDiscriminant"
  | .deinit _ => "Deinit"
  | .validate _ => "Validate"
  | .mention _ => "PlaceMention"

/-- The kind of a terminator. -/
def Terminator.kind : Terminator → String
  | .goto _ => "Goto"
  | .ite _ _ _ => "If"
  | .switch _ _ _ => "Switch"
  | .unreachable => "Unreachable"
  | .call _ _ _ _ _ _ => "Call"
  | .ret => "Return"
  | .intrinsic _ _ _ _ => "Intrinsic"

/-- The kind of an operator on one value. -/
def UnaryOp.kind : UnaryOp → String
  | .neg => "IntUnOp"
  | .bitNot => "IntUnOp"
  | .not => "BoolUnOp"
  | .cast _ => "IntToIntCast"
  | .transmute _ => "Transmute"
  | .expose => "PtrToInt"
  | .fromAddr _ => "IntToPtr"

/-- The kind of an operator on two values. -/
def BinaryOp.kind : BinaryOp → String
  | .int _ => "IntBinOp"
  | .rel _ => "RelOp"
  | .bool _ => "BoolBinOp"
  | .offset _ => "PtrOffset"

namespace IntrinsicOp

/-- The intrinsics, by name. -/
def all : List IntrinsicOp :=
  [allocate, assume, deallocate, exit, panic, exposeProvenance, withExposedProvenance,
   printStderr, printStdout]

/-- The name of an intrinsic, in upper case. -/
def name : IntrinsicOp → String
  | printStdout => "PRINT_STDOUT"
  | printStderr => "PRINT_STDERR"
  | exit => "EXIT"
  | panic => "PANIC"
  | allocate => "ALLOCATE"
  | deallocate => "DEALLOCATE"
  | exposeProvenance => "POINTER_EXPOSE_PROVENANCE"
  | withExposedProvenance => "POINTER_WITH_EXPOSED_PROVENANCE"
  | assume => "ASSUME"

/-- The kind of an intrinsic, which is the intrinsic itself. -/
def kind (op : IntrinsicOp) : String := "IntrinsicOp." ++ op.name

/-- The operation of a name in lower case. -/
def ofName? (s : String) : Option IntrinsicOp :=
  all.find? (·.name.toLower == s)

end IntrinsicOp

/-! ## The lists -/

def valueKinds : List String :=
  ["AddrOf", "BinOp", "Constant", "CreateRef", "FnPointerConstant", "GetDiscriminant", "Load",
   "TupleExpr", "UnOp", "UnionExpr", "VariantExpr"]

def placeKinds : List String := ["Deref", "Downcast", "Field", "Index", "Local"]

def statementKinds : List String :=
  ["Assign", "Deinit", "Finalize", "PlaceMention", "SetDiscriminant", "StorageDead",
   "StorageLive", "Validate"]

def terminatorKinds : List String :=
  ["Call", "Goto", "If", "Intrinsic", "Return", "Switch", "Unreachable"]

def unaryKinds : List String :=
  ["BoolUnOp", "IntToIntCast", "IntToPtr", "IntUnOp", "PtrToInt", "Transmute"]

def binaryKinds : List String := ["BoolBinOp", "IntBinOp", "PtrOffset", "RelOp"]

def intrinsicKinds : List String := IntrinsicOp.all.map IntrinsicOp.kind

/-- The kinds of nodes by family. -/
def nodeKinds : List (String × List String) :=
  [("value expression", valueKinds), ("place expression", placeKinds),
   ("statement", statementKinds), ("terminator", terminatorKinds),
   ("unary operator", unaryKinds), ("binary operator", binaryKinds),
   ("intrinsic", intrinsicKinds)]

theorem ValueExpr.kind_mem (e : ValueExpr) : e.kind ∈ valueKinds := by
  cases e <;> simp [kind, valueKinds]

theorem PlaceExpr.kind_mem (p : PlaceExpr) : p.kind ∈ placeKinds := by
  cases p <;> simp [kind, placeKinds]

theorem Statement.kind_mem (s : Statement) : s.kind ∈ statementKinds := by
  cases s <;> simp [kind, statementKinds]

theorem Terminator.kind_mem (t : Terminator) : t.kind ∈ terminatorKinds := by
  cases t <;> simp [kind, terminatorKinds]

theorem UnaryOp.kind_mem (op : UnaryOp) : op.kind ∈ unaryKinds := by
  cases op <;> simp [kind, unaryKinds]

theorem BinaryOp.kind_mem (op : BinaryOp) : op.kind ∈ binaryKinds := by
  cases op <;> simp [kind, binaryKinds]

theorem IntrinsicOp.kind_mem (op : IntrinsicOp) : op.kind ∈ intrinsicKinds := by
  exact List.mem_map_of_mem (by cases op <;> simp [all])

end AbstractMachine
