/-
# AbstractMachine.Layout — laying types out as a C compiler would

Fields go in order, each at the next multiple of its natural alignment, and the whole is rounded up
to the largest alignment in it. A union puts every field at zero and keeps the bytes that some field
covers. A tagged enum puts an integer tag first and every payload behind it; payload number `i` is
active when the tag reads `i`.

Rounding to a multiple of zero is the only thing that can go wrong, apart from a field that reaches
out of the union whose chunks are asked for.
-/
import AbstractMachine.Address

namespace AbstractMachine

/-! ## Alignment -/

/-- Whether an integer is a power of two. -/
def isPowerOfTwo (n : Int) : Bool :=
  0 < n && 1 <<< n.toNat.log2 == n.toNat

/-- The largest power of two that divides a positive number. -/
def lowBit (n : Nat) : Nat :=
  n.gcd (1 <<< n.log2)

/-- The alignment that is left `offset` bytes into an aligned place. -/
def restrictAlign (align offset : Int) : Int :=
  if offset = 0 then align else min align (lowBit offset.natAbs)

/-- The least multiple of `align` from `n` on. -/
def roundUp (n align : Int) : Except Fault Int :=
  if align = 0 then .error (.arithmetic .divisionByZero)
  else .ok (-(Int.fdiv (-n) align) * align)

/-- The largest of some alignments, or one if there are none. -/
def largestAlign : List Int → Int
  | [] => 1
  | a :: as => as.foldl max a

mutual

/-- The alignment that a type has by itself. -/
def Ty.naturalAlign (target : Target) : Ty → Int
  | .bool => 1
  | .int t => t.size
  | .ptr _ => target.ptrSize
  | .tuple fields _ => largestAlign (fieldAligns target fields)
  | .array elem _ => elem.naturalAlign target
  | .union ⟨fields, _, _⟩ => largestAlign (fieldAligns target fields)
  | .enum ⟨variants, _, _, _⟩ => largestAlign (variantAligns target variants)

def fieldAligns (target : Target) : List Field → List Int
  | [] => []
  | ⟨_, ty⟩ :: fields => ty.naturalAlign target :: fieldAligns target fields

def variantAligns (target : Target) : List Variant → List Int
  | [] => []
  | ⟨ty, tagger⟩ :: variants =>
      ty.naturalAlign target :: tagger.map (·.ty.size) ++ variantAligns target variants

end

/-! ## Chunks -/

/-- Whether a field with this many bytes lies inside a buffer of `n` bytes. Offsets below zero count
back from its end. -/
def inBuffer (n : Nat) (offset size : Int) : Bool :=
  size ≤ 0 || (-(n : Int) ≤ offset && offset + size ≤ n)

/-- Whether a field inside a buffer of `n` bytes covers byte `i` of it. -/
def coversByte (n : Nat) (offset size : Int) (i : Nat) : Bool :=
  (offset ≤ i && i < offset + size) || (offset ≤ (i : Int) - n && (i : Int) - n < offset + size)

/-- The maximal runs of `true`, as ranges, given where the current run began and the position of
the first flag. -/
def runs : Option Int → Int → List Bool → List Chunk
  | none, _, [] => []
  | some s, i, [] => [⟨s, i - s⟩]
  | none, i, false :: flags => runs none (i + 1) flags
  | none, i, true :: flags => runs (some i) (i + 1) flags
  | some s, i, true :: flags => runs (some s) (i + 1) flags
  | some s, i, false :: flags => ⟨s, i - s⟩ :: runs none (i + 1) flags

/-- The maximal ranges of bytes that some field covers. -/
def chunksOf (target : Target) (fields : List Field) (size : Int) : Except Fault (List Chunk) := do
  let n := size.toNat
  require (fields.all fun f => inBuffer n f.offset (f.ty.byteSize target))
    (.arithmetic .indexOutOfRange)
  return runs none 0 ((List.range n).map fun i =>
    fields.any fun f => coversByte n f.offset (f.ty.byteSize target) i)

/-! ## Aggregates -/

/-- Put fields in order from an offset on; also the end of the last one. -/
def placeFields (target : Target) (offset : Int) : List Ty → Except Fault (List Field × Int)
  | [] => .ok ([], offset)
  | ty :: tys => do
      let start ← roundUp offset (ty.naturalAlign target)
      let (fields, stop) ← placeFields target (start + ty.byteSize target) tys
      return (⟨start, ty⟩ :: fields, stop)

namespace Ty

/-- The tuple without fields. -/
def unit : Ty := .tuple [] 0

/-- The tuple of these fields. -/
def tupleOf (target : Target) (tys : List Ty) : Except Fault Ty := do
  let (fields, stop) ← placeFields target 0 tys
  let size ← roundUp stop (largestAlign (1 :: tys.map (naturalAlign target)))
  return .tuple fields size

/-- The union of these fields. -/
def unionOf (target : Target) (tys : List Ty) : Except Fault UnionTy := do
  let fields := tys.map fun ty => (⟨0, ty⟩ : Field)
  let widest := ((tys.map (byteSize target)).max?).getD 0
  let size ← roundUp widest (largestAlign (tys.map (naturalAlign target)))
  return { fields, chunks := ← chunksOf target fields size, size }

end Ty

/-- The types that have names of their own. -/
def Ty.named (target : Target) : List (String × Ty) :=
  [("bool", .bool), ("raw", .ptr .raw), ("fn", .ptr .fn), ("unit", .unit),
   ("usize", .int (.usize target)), ("isize", .int (.isize target)),
   ("u8", .int ⟨false, 1⟩), ("u16", .int ⟨false, 2⟩), ("u32", .int ⟨false, 4⟩),
   ("u64", .int ⟨false, 8⟩), ("i8", .int ⟨true, 1⟩), ("i16", .int ⟨true, 2⟩),
   ("i32", .int ⟨true, 4⟩), ("i64", .int ⟨true, 8⟩)]

/-- The decision tree that reads a tag at offset zero and takes it for the variant. -/
def tagDiscriminator (tag : IntTy) (count : Nat) : Discriminator :=
  .branch 0 tag ((List.range count).map fun (i : Nat) => ⟨i, i + 1, .known i⟩) .invalid

/-- The enum with a tag in front and these payloads, each a list of fields. -/
def EnumTy.tagged (target : Target) (payloads : List (List Ty)) (tag : IntTy) :
    Except Fault EnumTy := do
  let placed ← payloads.mapM (placeFields target tag.size)
  let align := largestAlign (tag.size :: payloads.flatten.map (Ty.naturalAlign target))
  let size ← roundUp ((placed.map (·.2)).foldl max tag.size) align
  let variants := placed.zipIdx.map fun ((fields, _), i) =>
    { ty := .tuple fields size, tagger := [⟨0, tag, (i : Nat)⟩] : Variant }
  return { variants, discriminator := tagDiscriminator tag payloads.length
           discriminantTy := .int (.isize target), size }

/-! ## Pointers and places -/

/-- What a safe pointer to a type has to point to. -/
def Ty.pointee (target : Target) (ty : Ty) : Pointee :=
  { size := ty.byteSize target, align := ty.naturalAlign target, inhabited := ty.inhabited }

/-- A place of a type, at its natural alignment. -/
def Ty.place (target : Target) (ty : Ty) : PlaceTy :=
  { ty, align := ty.naturalAlign target }

theorem isPowerOfTwo_iff {n : Int} : isPowerOfTwo n = true ↔ ∃ k : Nat, n = (1 : Int) <<< k := by
  simp only [isPowerOfTwo, Bool.and_eq_true, decide_eq_true_eq, beq_iff_eq]
  constructor
  · rintro ⟨hn, hs⟩
    refine ⟨n.toNat.log2, ?_⟩
    have h := congrArg Int.ofNat hs
    simpa [Int.shiftLeft_eq, Nat.shiftLeft_eq, Int.toNat_of_nonneg (Int.le_of_lt hn)] using h.symm
  · rintro ⟨k, rfl⟩
    have h : (1 : Int) <<< k = ((1 <<< k : Nat) : Int) := rfl
    rw [h, Int.toNat_natCast, Nat.one_shiftLeft, Nat.log2_two_pow, Nat.one_shiftLeft]
    exact ⟨Int.natCast_pos.2 (Nat.two_pow_pos k), rfl⟩

end AbstractMachine
