/-
# AbstractMachine.Value.Text — values as text

Addresses are written in base sixteen, with the provenance in square brackets behind them; all
other numbers in base ten.
-/
import AbstractMachine.Value
import AbstractMachine.Ty.Text
import AbstractMachine.Text.Number

namespace AbstractMachine

/-- A pointer: `0x10[alloc1]`, or `0x10` without provenance. -/
def Pointer.text (p : Pointer) : String :=
  Text.hex p.addr ++
    match p.provenance with
    | none => ""
    | some id => "[" ++ id.text ++ "]"

/-- A byte: `Uninit`, `Init(5)`, `Init(5, alloc0)`. -/
def AbsByte.text : AbsByte → String
  | .uninit => "Uninit"
  | .init d none => "Init(" ++ toString d.toNat ++ ")"
  | .init d (some id) => "Init(" ++ toString d.toNat ++ ", " ++ id.text ++ ")"

/-- A list of bytes, in square brackets. -/
def AbsByte.listText (bs : List AbsByte) : String :=
  Text.listed (bs.map text)

mutual

/-- A value, in full. -/
def Value.text : Value → String
  | .int n => "Int(" ++ toString n ++ ")"
  | .bool b => "Bool(" ++ Text.truth b ++ ")"
  | .ptr p => "Ptr(" ++ p.text ++ ")"
  | .tuple elems => "TupleValue(elems=" ++ Text.tupled (elemTexts elems) ++ ")"
  | .union chunks =>
      "UnionValue(chunks="
        ++ Text.tupled (chunks.map fun c => Text.tupled (c.map AbsByte.text)) ++ ")"
  | .variant d payload =>
      "VariantValue(discriminant=" ++ toString d ++ ", data=" ++ payload.text ++ ")"

def elemTexts : List Value → List String
  | [] => []
  | v :: vs => v.text :: elemTexts vs

end

end AbstractMachine
