/-
# AbstractMachine.Representation.Decode — the value that bytes stand for

Decoding reads bytes at a type. Bytes of the wrong number, uninitialised bytes where a scalar needs
them, integers that are no boolean, tags that select no variant, and addresses that a safe pointer
may not have, stand for no value; that is the answer `none` and not a fault. A fault means that the
type itself is wrong: an enum whose decision tree names a variant that it does not have, or an
alignment of zero.

Padding is skipped, so many byte strings stand for one value. A pointer keeps the provenance of its
bytes if they agree on it, and loses it otherwise. Integers have no provenance to keep.
-/
import AbstractMachine.Representation.WellFormed
import AbstractMachine.IntBytes
import AbstractMachine.Slice

namespace AbstractMachine

/-! ## Answers that may be absent -/

/-- The outcome of reading bytes: a fault, no value, or a value. -/
abbrev Decoded (α : Type) := Except Fault (Option α)

/-- Go on with a decoded value, if there is one. -/
def Decoded.andThen {α β : Type} (x : Decoded α) (f : α → Decoded β) : Decoded β :=
  match x with
  | .error e => .error e
  | .ok none => .ok none
  | .ok (some a) => f a

/-- Change a decoded value, if there is one. -/
def Decoded.map {α β : Type} (f : α → β) (x : Decoded α) : Decoded β :=
  x.andThen fun a => .ok (some (f a))

/-- Read each part of a list; one part without a value leaves the whole without one. -/
def Decoded.each {α β : Type} (read : α → Decoded β) : List α → Decoded (List β)
  | [] => .ok (some [])
  | x :: xs => (read x).andThen fun v => (each read xs).map (v :: ·)

/-! ## Scalars -/

/-- The boolean that bytes stand for. -/
def decodeBool : List AbsByte → Option Bool
  | [.init 0 _] => some false
  | [.init 1 _] => some true
  | _ => none

/-- The integer that bytes stand for. -/
def IntTy.decode (t : IntTy) (target : Target) (data : List AbsByte) : Option Int :=
  if (data.length : Int) = t.size then
    (AbsByte.allData? data).map (target.endian.decode · t.signed)
  else none

/-- The provenance that all bytes agree on; none if there are no bytes or they disagree. -/
def commonProvenance (data : List AbsByte) : Option AllocId :=
  match data.map AbsByte.provenance? with
  | [] => none
  | p :: ps => if ps.all (· == p) then p else none

/-- The pointer that bytes stand for. -/
def PtrTy.decode (t : PtrTy) (target : Target) (data : List AbsByte) : Decoded Pointer :=
  match AbsByte.allData? data with
  | none => .ok none
  | some bytes =>
      let addr := target.endian.decode bytes false
      match t.validAddr addr with
      | .error f => .error f
      | .ok false => .ok none
      | .ok true => .ok (some { addr, provenance := commonProvenance data })

/-! ## Discriminants -/

mutual

/-- Walk a decision tree over the bytes of an enum. -/
def Discriminator.decode (target : Target) (data : List AbsByte) : Discriminator → Option Int
  | .known d => some d
  | .invalid => none
  | .branch offset ty children fallback =>
      match ty.decode target (Slice.read data offset (offset + ty.size)) with
      | none => none
      | some v => (decodeChild target data v children).getD (fallback.decode target data)

/-- Go on with the first child whose range holds the integer, if there is one. -/
def decodeChild (target : Target) (data : List AbsByte) (v : Int) :
    List Branch → Option (Option Int)
  | [] => none
  | ⟨start, stop, next⟩ :: children =>
      if start ≤ v ∧ v < stop then some (next.decode target data)
      else decodeChild target data v children

end

/-! ## Types -/

/-- The byte ranges of the elements of an array. -/
def elementRanges (size : Int) (count : Int) (data : List AbsByte) : List (List AbsByte) :=
  (List.range count.toNat).map fun (i : Nat) => Slice.read data (i * size) ((i + 1) * size)

mutual

/-- The value that bytes stand for at a type. -/
def Ty.decode (target : Target) (ty : Ty) (data : List AbsByte) : Decoded Value :=
  if (data.length : Int) ≠ ty.byteSize target then .ok none
  else match ty with
    | .bool => .ok ((decodeBool data).map .bool)
    | .int t => .ok ((t.decode target data).map .int)
    | .ptr t => (t.decode target data).map .ptr
    | .tuple fields _ => (decodeFields target fields data).map .tuple
    | .array elem count =>
        (Decoded.each (elem.decode target)
          (elementRanges (elem.byteSize target) count data)).map .tuple
    | .union u =>
        .ok (some (.union (u.chunks.map fun c => Slice.read data c.start (c.start + c.size))))
    | .enum ⟨variants, discriminator, _, _⟩ =>
        match discriminator.decode target data with
        | none => .ok none
        | some d => (decodeVariant target d variants d data).map (.variant d)

/-- The values that bytes stand for at the fields of a tuple. -/
def decodeFields (target : Target) : List Field → List AbsByte → Decoded (List Value)
  | [], _ => .ok (some [])
  | ⟨offset, ty⟩ :: fields, data =>
      (ty.decode target (Slice.read data offset (offset + ty.byteSize target))).andThen fun v =>
        (decodeFields target fields data).map (v :: ·)

/-- The payload that bytes stand for at the variant `index` places down the list, which is the
variant `d` of its enum. -/
def decodeVariant (target : Target) (d : Int) : List Variant → Int → List AbsByte → Decoded Value
  | [], _, _ => .error (.defect (.noVariant d))
  | ⟨ty, _⟩ :: variants, index, data =>
      if index = 0 then ty.decode target data
      else decodeVariant target d variants (index - 1) data

end

end AbstractMachine
