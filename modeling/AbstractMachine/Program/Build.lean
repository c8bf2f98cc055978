/-
# AbstractMachine.Program.Build — programs in short form

Locals that are given as a list are named `_0`, `_1`, … by their place in it, and passed directly at
the size and alignment of their type. A size that depends on the width of a pointer is the one on
the standard target: both sides of a call are written in the same form, so they agree on it.
-/
import AbstractMachine.Layout
import AbstractMachine.Program
import AbstractMachine.Slice

namespace AbstractMachine

/-- The name of the local with a number. -/
def localName (n : Int) : String := "_" ++ toString n

/-- How a value of a place is passed. -/
def PlaceTy.abi (place : PlaceTy) : ArgAbi :=
  { size := place.byteSize .standard, align := place.align }

/-- The place type of the local with a number. Numbers below zero count from the end. -/
def localAt (locals : List PlaceTy) (n : Int) : Except Fault PlaceTy :=
  match Slice.get? locals n with
  | some place => .ok place
  | none => .error (.arithmetic .indexOutOfRange)

/-- How the local with a number is passed, with its name. -/
def localAbi (locals : List PlaceTy) (n : Int) : Except Fault (String × ArgAbi) := do
  return (localName n, (← localAt locals n).abi)

/-- A function over numbered locals. -/
def Function.numbered (locals : List PlaceTy) (params : List Int) (result : Int)
    (blocks : List (String × Block)) (start : String) (convention : CallingConvention) :
    Except Fault Function := do
  let params ← params.mapM (localAbi locals)
  let (result, resultAbi) ← localAbi locals result
  return { locals := Table.ofList (locals.zipIdx.map fun (place, i) => (localName i, place))
           params, result, resultAbi, start, blocks := Table.ofList blocks, convention }

namespace Program

/-- A program of one function without parameters, which returns nothing. -/
def ofMain (locals : List PlaceTy) (blocks : List (String × Block)) : Except Fault Program := do
  let main ← Function.numbered (locals ++ [{ ty := .unit, align := 1 }]) [] locals.length blocks
    "bb0" .rust
  return { functions := Table.ofList [("main", main)] }

/-- The end of a program. -/
def exit : Terminator := .intrinsic .exit [] none none

/-- A program that does some statements and ends. -/
def small (locals : List PlaceTy) (statements : List Statement) : Except Fault Program :=
  ofMain locals [("bb0", { statements, terminator := exit })]

/-- The block that prints one value, with its number. -/
def printBlock (n : Nat) (value : ValueExpr) : String × Block :=
  ("print" ++ toString n,
    { statements := [],
      terminator := .intrinsic .printStdout [value] none (some ("print" ++ toString (n + 1))) })

/-- A program that does some statements, prints some values, and ends. -/
def printing (locals : List PlaceTy) (statements : List Statement) (printed : List ValueExpr) :
    Except Fault Program :=
  ofMain locals
    (("bb0", { statements, terminator := .goto "print0" })
      :: printed.zipIdx.map (fun (value, n) => printBlock n value)
      ++ [("print" ++ toString printed.length, { statements := [], terminator := exit })])

end Program

end AbstractMachine
