/-
# AbstractMachine.Representation.Encode — the bytes of a value

Encoding writes the canonical bytes of a well-formed value: everything that the type does not cover
is left uninitialised, integers carry no provenance, and a pointer puts its own on all of its bytes.
An enum is its payload with the tag of the variant laid over it.

Only well-formed values have bytes; for others `Ty.encode` is a fault.
-/
import AbstractMachine.Representation.WellFormed
import AbstractMachine.IntBytes
import AbstractMachine.Slice

namespace AbstractMachine

/-- Lay one tag write over bytes. -/
def TagWrite.apply (target : Target) (w : TagWrite) (buffer : List AbsByte) :
    Except Fault (List AbsByte) := do
  let bytes ← target.endian.encode w.value w.ty.size w.ty.signed
  return Slice.overlay buffer w.offset (AbsByte.ofData bytes none)

/-- Lay the tag writes of a variant over bytes, first to last. -/
def writeTag (target : Target) : List TagWrite → List AbsByte → Except Fault (List AbsByte)
  | [], buffer => .ok buffer
  | w :: ws, buffer => do writeTag target ws (← w.apply target buffer)

/-- Lay the chunks of a union over bytes, first to last. -/
def writeChunks : List Chunk → List (List AbsByte) → List AbsByte → List AbsByte
  | c :: cs, bytes :: rest, buffer =>
      writeChunks cs rest (Slice.write buffer c.start (c.start + c.size) bytes)
  | _, _, buffer => buffer

/-- The results of an operation on each element, one after the other. -/
def concatOk {α β : Type} (f : α → Except Fault (List β)) : List α → Except Fault (List β)
  | [] => .ok []
  | x :: xs => do
      let head ← f x
      let tail ← concatOk f xs
      return head ++ tail

mutual

/-- The bytes of a value whose shape fits the type. -/
def Ty.bytes (target : Target) : Ty → Value → Except Fault (List AbsByte)
  | .bool, .bool b => .ok [.init (if b then 1 else 0) none]
  | .int t, .int n => do
      return AbsByte.ofData (← target.endian.encode n t.size t.signed) none
  | .ptr _, .ptr p => do
      return AbsByte.ofData (← target.endian.encode p.addr target.ptrSize false) p.provenance
  | .tuple fields size, .tuple vs => fieldBytes target fields vs (AbsByte.blank size)
  | .array elem _, .tuple vs => concatOk (elem.bytes target) vs
  | .union u, .union chunks => .ok (writeChunks u.chunks chunks (AbsByte.blank u.size))
  | .enum ⟨variants, _, _, _⟩, .variant d payload => variantBytes target d variants d payload
  | ty, v => .error (.defect (.illFormed v ty))

/-- Lay the bytes of fields over a buffer, first to last. -/
def fieldBytes (target : Target) :
    List Field → List Value → List AbsByte → Except Fault (List AbsByte)
  | ⟨offset, ty⟩ :: fields, v :: vs, buffer => do
      let bytes ← ty.bytes target v
      fieldBytes target fields vs (Slice.overlay buffer offset bytes)
  | _, _, buffer => .ok buffer

/-- The bytes of a payload and the tag over it, for the variant `index` places down the list, which
is the variant `d` of its enum. -/
def variantBytes (target : Target) (d : Int) :
    List Variant → Int → Value → Except Fault (List AbsByte)
  | [], _, _ => .error (.defect (.noVariant d))
  | ⟨ty, tagger⟩ :: variants, index, payload =>
      if index = 0 then do
        let bytes ← ty.bytes target payload
        writeTag target tagger bytes
      else variantBytes target d variants (index - 1) payload

end

/-- The canonical bytes of a well-formed value. -/
def Ty.encode (target : Target) (ty : Ty) (v : Value) : Except Fault (List AbsByte) := do
  require (← ty.wellFormed target v) (.defect (.illFormed v ty))
  ty.bytes target v

end AbstractMachine
