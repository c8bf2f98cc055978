/-
# AbstractMachine.Ty.Text — types as text

Scalar and pointer types are written by their usual short names, the width of an integer in bits.
Aggregates are written in full, with every offset, since a message about a layout is read to find
out what is wrong with it.
-/
import AbstractMachine.Ty
import AbstractMachine.Text.Sequence

namespace AbstractMachine

/-- The name of an identity: `alloc3`. -/
def AllocId.text (id : AllocId) : String :=
  "alloc" ++ toString id.index

/-- The name of an integer type: `u32`, `i8`. -/
def IntTy.text (t : IntTy) : String :=
  (if t.signed then "i" else "u") ++ toString (t.size * 8)

/-- What a safe pointer points to, in full. -/
def Pointee.text (p : Pointee) : String :=
  "PointeeInfo(size=" ++ toString p.size ++ ", align=" ++ toString p.align
    ++ ", inhabited=" ++ Text.truth p.inhabited ++ ", freeze=" ++ Text.truth p.freeze ++ ")"

/-- The name of a pointer type; what it points to is left out. -/
def PtrTy.text : PtrTy → String
  | .ref true _ => "&mut"
  | .ref false _ => "&"
  | .box _ => "Box"
  | .raw => "*raw"
  | .fn => "fn()"

/-- A tag write, as a tuple. -/
def TagWrite.text (w : TagWrite) : String :=
  Text.tupled [toString w.offset, w.ty.text, toString w.value]

/-- A chunk, as a pair. -/
def Chunk.text (c : Chunk) : String :=
  Text.tupled [toString c.start, toString c.size]

mutual

/-- A decision tree, in full. -/
def Discriminator.text : Discriminator → String
  | .known d => "KnownDiscriminant(value=" ++ toString d ++ ")"
  | .invalid => "InvalidDiscriminant()"
  | .branch offset ty children fallback =>
      "BranchDiscriminator(offset=" ++ toString offset ++ ", value_type=" ++ ty.text
        ++ ", children=" ++ Text.tupled (branchTexts children)
        ++ ", fallback=" ++ fallback.text ++ ")"

def branchTexts : List Branch → List String
  | [] => []
  | ⟨start, stop, next⟩ :: children =>
      Text.tupled [Text.tupled [toString start, toString stop], next.text] :: branchTexts children

end

mutual

/-- A type: scalars and pointers by name, aggregates in full. -/
def Ty.text : Ty → String
  | .bool => "bool"
  | .int t => t.text
  | .ptr t => t.text
  | .tuple fields size =>
      "TupleType(fields=" ++ Text.tupled (fieldTexts fields) ++ ", size=" ++ toString size ++ ")"
  | .array elem count => "ArrayType(elem=" ++ elem.text ++ ", count=" ++ toString count ++ ")"
  | .union ⟨fields, chunks, size⟩ =>
      "UnionType(fields=" ++ Text.tupled (fieldTexts fields)
        ++ ", chunks=" ++ Text.tupled (chunks.map Chunk.text) ++ ", size=" ++ toString size ++ ")"
  | .enum ⟨variants, discriminator, discriminantTy, size⟩ =>
      "EnumType(variants=" ++ Text.tupled (variantTexts variants)
        ++ ", discriminator=" ++ discriminator.text
        ++ ", discriminant_ty=" ++ discriminantTy.text ++ ", size=" ++ toString size ++ ")"

def fieldTexts : List Field → List String
  | [] => []
  | ⟨offset, ty⟩ :: fields => Text.tupled [toString offset, ty.text] :: fieldTexts fields

def variantTexts : List Variant → List String
  | [] => []
  | ⟨ty, tagger⟩ :: variants =>
      ("Variant(ty=" ++ ty.text ++ ", tagger=" ++ Text.tupled (tagger.map TagWrite.text) ++ ")")
        :: variantTexts variants

end

end AbstractMachine
