/-
# AbstractMachine.Program — functions, blocks, statements and terminators

A program is a table of functions, each a control-flow graph. A block is a list of statements, done
one after the other, and a terminator, which says where control goes next. A function declares its
locals, which of them are its parameters, and which one holds what it returns.

How a value is passed is an agreement between caller and callee: both state the size, the
alignment and the mode, and a call in which they disagree is undefined.
-/
import AbstractMachine.Expr
import AbstractMachine.Table

namespace AbstractMachine

/-- Instructions that do not touch the flow of control. -/
inductive Statement where
  | assign (destination : PlaceExpr) (source : ValueExpr)
  /-- Fail unless the place holds a value. -/
  | finalize (place : PlaceExpr)
  /-- Begin the life of a local. -/
  | live (name : String)
  /-- End the life of a local. -/
  | dead (name : String)
  /-- Write the tag of a variant, and nothing else. -/
  | setDiscriminant (place : PlaceExpr) (discriminant : Int)
  | deinit (place : PlaceExpr)
  /-- Retag all pointers in the value of a place. -/
  | validate (place : PlaceExpr)
  /-- Find a place and do nothing with it. -/
  | mention (place : PlaceExpr)

/-- The rules by which arguments travel. -/
inductive CallingConvention where
  | rust
  | c
  deriving DecidableEq

/-- Whether a value travels by itself or by its address. -/
inductive PassMode where
  | direct
  | indirect
  deriving DecidableEq

/-- How one value is passed. -/
structure ArgAbi where
  size : Int
  align : Int
  mode : PassMode := .direct
  deriving DecidableEq

/-- What a program asks of its surroundings. -/
inductive IntrinsicOp where
  | printStdout
  | printStderr
  | exit
  | panic
  | allocate
  | deallocate
  | exposeProvenance
  | withExposedProvenance
  | assume
  deriving DecidableEq

/-- How a block ends. -/
inductive Terminator where
  | goto (block : String)
  | ite (condition : ValueExpr) (onTrue onFalse : String)
  /-- The block of the first case that is the value, else the fallback. -/
  | switch (value : ValueExpr) (cases : List (Int × String)) (fallback : String)
  | unreachable
  | call (callee : ValueExpr) (arguments : List (ValueExpr × ArgAbi)) (result : PlaceExpr)
      (resultAbi : ArgAbi) (next : Option String) (convention : CallingConvention)
  | ret
  | intrinsic (op : IntrinsicOp) (arguments : List ValueExpr) (result : Option PlaceExpr)
      (next : Option String)

/-- Statements, and what comes after them. -/
structure Block where
  statements : List Statement
  terminator : Terminator

/-- A control-flow graph with its locals. -/
structure Function where
  locals : Table String PlaceTy
  params : List (String × ArgAbi)
  /-- The local that holds what the function returns. -/
  result : String
  resultAbi : ArgAbi
  start : String
  blocks : Table String Block
  convention : CallingConvention := .rust

/-- Functions, and the one that is run. -/
structure Program where
  functions : Table String Function := {}
  start : String := "main"

end AbstractMachine
