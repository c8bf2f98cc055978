/-
# AbstractMachine.Proofs.Soundness — layouts that make sense

A type may lay its components out in any way, and the operations on types take every layout as it
is. What they guarantee needs a layout that makes sense, and each guarantee needs another part of
that. So the parts stand here one by one, as conditions on a single former (`FieldsInside`,
`TagsFit`, …), and `Ty.Every` asks a condition of a type and of all types in it.

Ranges are compared as sets of bytes. A component without bytes may stand anywhere, and what covers
nothing touches nothing.

What a guarantee needs is gathered from the parts: values have bytes and come back from them at a
`Sound` layout, they come back from the bytes that they have at a `Legible` one, and bytes come back
from their values, up to what the values do not hold, at a `Coherent` one. Where it is known that there
are bytes, or values, sizes do not matter, and what is left of the last two is `Retrievable` and
`Reflecting`.

Two conditions relate the tags of an enum to its decision tree, which the layout states apart from
each other. `TagsRead` goes from values to bytes: the tree finds the variant whose tag was written.
`TagsReflected` goes from bytes to values: the tag of the variant that the tree finds says no more
than the bytes do.
-/
import AbstractMachine.Representation.Decode
import AbstractMachine.Representation.Encode
import AbstractMachine.Proofs.Overlay

namespace AbstractMachine

/-! ## Types inside types -/

namespace Ty

/-- The types whose values a value of the type is made of. The fields of a union are views of its
bytes, and the discriminant of an enum is a number: they are no components. -/
def components : Ty → List Ty
  | .tuple fields _ => fields.map (·.ty)
  | .array elem _ => [elem]
  | .enum e => e.variants.map (·.ty)
  | _ => []

/-- A condition holds of a type, of its components, of their components, and so on. -/
inductive Every (P : Ty → Prop) : Ty → Prop
  | intro {ty : Ty} (here : P ty) (components : ∀ t ∈ ty.components, Every P t) : Every P ty

namespace Every

variable {P Q : Ty → Prop}

theorem here {ty : Ty} : ty.Every P → P ty
  | intro here _ => here

theorem field {fields : List Field} {size : Int} (h : (Ty.tuple fields size).Every P) {f : Field}
    (hf : f ∈ fields) : f.ty.Every P := by
  obtain ⟨_, components⟩ := h
  exact components f.ty (List.mem_map_of_mem hf)

theorem elem {elem : Ty} {count : Int} (h : (Ty.array elem count).Every P) : elem.Every P := by
  obtain ⟨_, components⟩ := h
  exact components elem List.mem_cons_self

theorem payload {e : EnumTy} (h : (Ty.enum e).Every P) {v : Variant} (hv : v ∈ e.variants) :
    v.ty.Every P := by
  obtain ⟨_, components⟩ := h
  exact components v.ty (List.mem_map_of_mem hv)

theorem imp (imp : ∀ t, P t → Q t) {ty : Ty} (h : ty.Every P) : ty.Every Q := by
  induction h with
  | intro here _ ih => exact intro (imp _ here) ih

theorem and {ty : Ty} (h : ty.Every P) (k : ty.Every Q) : ty.Every fun t => P t ∧ Q t := by
  induction h with
  | intro here _ ih =>
      obtain ⟨here', components⟩ := k
      exact intro ⟨here, here'⟩ fun t ht => ih t ht (components t ht)

/-- What holds of all types holds of those in a type. -/
theorem of_forall (h : ∀ t, P t) (ty : Ty) : ty.Every P := by
  induction ty using Ty.induction with
  | bool | int | ptr | union => exact intro (h _) (List.forall_mem_nil _)
  | tuple fields size ih => exact intro (h _) (List.forall_mem_map.2 ih)
  | array elem count ih => exact intro (h _) (List.forall_mem_singleton.2 ih)
  | enum e ih _ => exact intro (h _) (List.forall_mem_map.2 ih)

end Every

end Ty

/-! ## Ranges of components -/

/-- The bytes of a field. -/
def Field.extent (target : Target) (f : Field) : Chunk where
  start := f.offset
  size := f.ty.byteSize target

/-- The bytes that a tag write goes to. -/
def TagWrite.extent (w : TagWrite) : Chunk where
  start := w.offset
  size := w.ty.size

/-- A number that a decision tree may end with. -/
inductive Discriminator.Leaf : Discriminator → Int → Prop
  | known {d : Int} : Leaf (.known d) d
  | child {offset : Int} {ty : IntTy} {children : List Branch} {fallback : Discriminator}
      {b : Branch} {d : Int} : b ∈ children → Leaf b.next d →
      Leaf (.branch offset ty children fallback) d
  | fallback {offset : Int} {ty : IntTy} {children : List Branch} {fallback : Discriminator}
      {d : Int} : Leaf fallback d → Leaf (.branch offset ty children fallback) d

namespace Ty

/-- The bytes that a type covers: those of its scalars, of the chunks of its unions, and of the tags
of its enums, whichever variant is active. The rest is padding. -/
inductive Covers (target : Target) : Ty → Int → Prop
  | bool : Covers target .bool 0
  | int {t : IntTy} {i : Int} : 0 ≤ i → i < t.size → Covers target (.int t) i
  | ptr {t : PtrTy} {i : Int} : 0 ≤ i → i < target.ptrSize → Covers target (.ptr t) i
  | field {fields : List Field} {size : Int} {f : Field} {i : Int} : f ∈ fields →
      Covers target f.ty i → Covers target (.tuple fields size) (f.offset + i)
  | elem {elem : Ty} {count k i : Int} : 0 ≤ k → k < count → Covers target elem i →
      Covers target (.array elem count) (k * elem.byteSize target + i)
  | chunk {u : UnionTy} {c : Chunk} {i : Int} : c ∈ u.chunks → i ∈ c → Covers target (.union u) i
  | payload {e : EnumTy} {v : Variant} {i : Int} : v ∈ e.variants → Covers target v.ty i →
      Covers target (.enum e) i
  | tag {e : EnumTy} {v : Variant} {w : TagWrite} {i : Int} : v ∈ e.variants → w ∈ v.tagger →
      i ∈ w.extent → Covers target (.enum e) i

/-! ## Conditions on one former -/

/-- An integer has at least one byte. -/
def IntSized : Ty → Prop
  | .int t => 1 ≤ t.size
  | _ => True

/-- What a safe pointer points to has an alignment of at least one. -/
def PointeeAligned : Ty → Prop
  | .ptr t => ∀ p, t.safePointee = some p → 1 ≤ p.align
  | _ => True

/-- An array has no negative number of elements. -/
def Counted : Ty → Prop
  | .array _ count => 0 ≤ count
  | _ => True

/-- The size of a tuple or union is a number of bytes. -/
def Sized : Ty → Prop
  | .tuple _ size => 0 ≤ size
  | .union u => 0 ≤ u.size
  | _ => True

/-- The fields of a tuple lie inside it. -/
def FieldsInside (target : Target) : Ty → Prop
  | .tuple fields size => ∀ f ∈ fields, (f.extent target).Inside size
  | _ => True

/-- No two fields of a tuple share a byte. -/
def FieldsApart (target : Target) : Ty → Prop
  | .tuple fields _ => fields.Pairwise fun f g => (f.extent target).Apart (g.extent target)
  | _ => True

/-- The size of a chunk of a union is a number of bytes. -/
def ChunksSized : Ty → Prop
  | .union u => ∀ c ∈ u.chunks, 0 ≤ c.size
  | _ => True

/-- The chunks of a union lie inside it. -/
def ChunksInside : Ty → Prop
  | .union u => ∀ c ∈ u.chunks, c.Inside u.size
  | _ => True

/-- No two chunks of a union share a byte. -/
def ChunksApart : Ty → Prop
  | .union u => u.chunks.Pairwise Chunk.Apart
  | _ => True

/-- The payloads of an enum have the size of the enum. -/
def PayloadsFill (target : Target) : Ty → Prop
  | .enum e => ∀ v ∈ e.variants, v.ty.byteSize target = e.size
  | _ => True

/-- The decision tree of an enum ends with variants that the enum has. -/
def VariantsNamed : Ty → Prop
  | .enum e => ∀ d, e.discriminator.Leaf d → 0 ≤ d ∧ d < e.variants.length
  | _ => True

/-- The integers that tag an enum lie in the range of their types. -/
def TagsFit : Ty → Prop
  | .enum e => ∀ v ∈ e.variants, ∀ w ∈ v.tagger, w.ty.canRepresent w.value = .ok true
  | _ => True

/-- The tags of an enum lie inside it. -/
def TagsInside : Ty → Prop
  | .enum e => ∀ v ∈ e.variants, ∀ w ∈ v.tagger, w.extent.Inside e.size
  | _ => True

/-- The tag of a variant touches no byte that the payload of the variant covers. -/
def TagsClear (target : Target) : Ty → Prop
  | .enum e => ∀ v ∈ e.variants, ∀ w ∈ v.tagger, ∀ i ∈ w.extent, ¬ v.ty.Covers target i
  | _ => True

/-- The decision tree of an enum finds every variant in its payloads with the tag over them. -/
def TagsRead (target : Target) : Ty → Prop
  | .enum e => ∀ (n : Nat) (v : Variant) (payload : Value) (bytes tagged : List AbsByte),
      e.variants[n]? = some v → v.ty.wellFormed target payload = .ok true →
      v.ty.encode target payload = .ok bytes → writeTag target v.tagger bytes = .ok tagged →
      e.discriminator.decode target tagged = some (n : Int)
  | _ => True

/-- Where the decision tree of an enum finds a variant, the tag of that variant is at most as defined
as the bytes that it was found in. -/
def TagsReflected (target : Target) : Ty → Prop
  | .enum e => ∀ (n : Nat) (v : Variant) (data tag : List AbsByte),
      (data.length : Int) = e.size → e.discriminator.decode target data = some (n : Int) →
      e.variants[n]? = some v → writeTag target v.tagger (AbsByte.blank e.size) = .ok tag →
      AbsByte.leAll tag data = true
  | _ => True

/-! ## Layouts -/

/-- A layout whose scalars have a size, whose components lie inside and apart, and whose enums name
what there is. It leaves open that sizes and counts are negative, and whether tags can be read. -/
structure Tidy (target : Target) (t : Ty) : Prop where
  int_sized : t.IntSized
  pointee_aligned : t.PointeeAligned
  fields_inside : t.FieldsInside target
  fields_apart : t.FieldsApart target
  chunks_inside : t.ChunksInside
  chunks_apart : t.ChunksApart
  payloads_fill : t.PayloadsFill target
  variants_named : t.VariantsNamed
  tags_fit : t.TagsFit
  tags_inside : t.TagsInside

/-- A layout that keeps its components inside. -/
structure LaidOut (target : Target) (t : Ty) : Prop where
  sized : t.Sized
  fields_inside : t.FieldsInside target
  chunks_inside : t.ChunksInside
  payloads_fill : t.PayloadsFill target
  tags_inside : t.TagsInside

/-- A layout that keeps its components inside, and says nothing of its own size. -/
structure Enclosed (target : Target) (t : Ty) : Prop where
  fields_inside : t.FieldsInside target
  chunks_inside : t.ChunksInside
  payloads_fill : t.PayloadsFill target
  tags_inside : t.TagsInside

/-- A layout that keeps every component of a value for itself, the variant of an enum included. -/
structure Sound (target : Target) (t : Ty) : Prop extends LaidOut target t where
  fields_apart : t.FieldsApart target
  chunks_apart : t.ChunksApart
  tags_fit : t.TagsFit
  tags_clear : t.TagsClear target
  tags_read : t.TagsRead target

/-- A layout from which what was written can be read. All of a sound layout is in it but the ranges of
the tags: a tag that cannot be written is never read either. -/
structure Legible (target : Target) (t : Ty) : Prop extends LaidOut target t where
  fields_apart : t.FieldsApart target
  chunks_apart : t.ChunksApart
  tags_clear : t.TagsClear target
  tags_read : t.TagsRead target

/-- A layout whose components are told apart in the bytes, if there are any bytes: all of a legible
layout but the sizes. -/
structure Retrievable (target : Target) (t : Ty) : Prop extends Enclosed target t where
  fields_apart : t.FieldsApart target
  chunks_apart : t.ChunksApart
  tags_clear : t.TagsClear target
  tags_read : t.TagsRead target

theorem LaidOut.enclosed {target : Target} {t : Ty} (h : t.LaidOut target) : t.Enclosed target where
  fields_inside := h.fields_inside
  chunks_inside := h.chunks_inside
  payloads_fill := h.payloads_fill
  tags_inside := h.tags_inside

theorem Legible.retrievable {target : Target} {t : Ty} (h : t.Legible target) :
    t.Retrievable target where
  toEnclosed := h.toLaidOut.enclosed
  fields_apart := h.fields_apart
  chunks_apart := h.chunks_apart
  tags_clear := h.tags_clear
  tags_read := h.tags_read

theorem Sound.legible {target : Target} {t : Ty} (h : t.Sound target) : t.Legible target where
  toLaidOut := h.toLaidOut
  fields_apart := h.fields_apart
  chunks_apart := h.chunks_apart
  tags_clear := h.tags_clear
  tags_read := h.tags_read

/-- A layout that writes a component where it reads it, the tag of an enum included. -/
structure Reflecting (target : Target) (t : Ty) : Prop where
  fields_inside : t.FieldsInside target
  chunks_inside : t.ChunksInside
  tags_inside : t.TagsInside
  tags_reflected : t.TagsReflected target

/-- A layout of which no bytes say less than the value that they stand for. -/
structure Coherent (target : Target) (t : Ty) : Prop where
  int_sized : t.IntSized
  counted : t.Counted
  fields_inside : t.FieldsInside target
  chunks_sized : t.ChunksSized
  chunks_inside : t.ChunksInside
  tags_fit : t.TagsFit
  tags_inside : t.TagsInside
  tags_reflected : t.TagsReflected target

theorem Coherent.reflecting {target : Target} {t : Ty} (h : t.Coherent target) :
    t.Reflecting target where
  fields_inside := h.fields_inside
  chunks_inside := h.chunks_inside
  tags_inside := h.tags_inside
  tags_reflected := h.tags_reflected

/-! ## Layouts, former by former -/

variable {target : Target}

theorem tidy_tuple_iff {fields : List Field} {size : Int} :
    (Ty.tuple fields size).Tidy target ↔
      (Ty.tuple fields size).FieldsInside target ∧ (Ty.tuple fields size).FieldsApart target := by
  constructor
  · intro tidy
    exact ⟨tidy.fields_inside, tidy.fields_apart⟩
  · rintro ⟨inside, apart⟩
    exact ⟨trivial, trivial, inside, apart, trivial, trivial, trivial, trivial, trivial, trivial⟩

theorem tidy_array {elem : Ty} {count : Int} : (Ty.array elem count).Tidy target :=
  ⟨trivial, trivial, trivial, trivial, trivial, trivial, trivial, trivial, trivial, trivial⟩

theorem tidy_union_iff {u : UnionTy} :
    (Ty.union u).Tidy target ↔ (Ty.union u).ChunksInside ∧ (Ty.union u).ChunksApart := by
  constructor
  · intro tidy
    exact ⟨tidy.chunks_inside, tidy.chunks_apart⟩
  · rintro ⟨inside, apart⟩
    exact ⟨trivial, trivial, trivial, trivial, inside, apart, trivial, trivial, trivial, trivial⟩

theorem sound_bool : Ty.bool.Sound target := by
  refine ⟨⟨?_, ?_, ?_, ?_, ?_⟩, ?_, ?_, ?_, ?_, ?_⟩ <;> trivial

theorem sound_int {t : IntTy} : (Ty.int t).Sound target := by
  refine ⟨⟨?_, ?_, ?_, ?_, ?_⟩, ?_, ?_, ?_, ?_, ?_⟩ <;> trivial

theorem sound_array {elem : Ty} {count : Int} : (Ty.array elem count).Sound target := by
  refine ⟨⟨?_, ?_, ?_, ?_, ?_⟩, ?_, ?_, ?_, ?_, ?_⟩ <;> trivial

theorem sound_ptr {t : PtrTy} : (Ty.ptr t).Sound target := by
  refine ⟨⟨?_, ?_, ?_, ?_, ?_⟩, ?_, ?_, ?_, ?_, ?_⟩ <;> trivial

theorem sound_tuple_iff {fields : List Field} {size : Int} :
    (Ty.tuple fields size).Sound target ↔
      0 ≤ size ∧ (Ty.tuple fields size).FieldsInside target ∧
        (Ty.tuple fields size).FieldsApart target := by
  constructor
  · intro sound
    exact ⟨sound.sized, sound.fields_inside, sound.fields_apart⟩
  · rintro ⟨sized, inside, apart⟩
    exact ⟨⟨sized, inside, trivial, trivial, trivial⟩, apart, trivial, trivial, trivial, trivial⟩

theorem sound_enum_iff {e : EnumTy} :
    (Ty.enum e).Sound target ↔
      (Ty.enum e).PayloadsFill target ∧ (Ty.enum e).TagsInside ∧ (Ty.enum e).TagsFit ∧
        (Ty.enum e).TagsClear target ∧ (Ty.enum e).TagsRead target := by
  constructor
  · intro sound
    exact ⟨sound.payloads_fill, sound.tags_inside, sound.tags_fit, sound.tags_clear,
      sound.tags_read⟩
  · rintro ⟨fill, inside, fit, clear, read⟩
    exact ⟨⟨trivial, trivial, trivial, fill, inside⟩, trivial, trivial, fit, clear, read⟩

theorem coherent_int_iff {t : IntTy} : (Ty.int t).Coherent target ↔ 1 ≤ t.size := by
  constructor
  · intro coherent
    exact coherent.int_sized
  · intro sized
    exact ⟨sized, trivial, trivial, trivial, trivial, trivial, trivial, trivial⟩

theorem coherent_array_iff {elem : Ty} {count : Int} :
    (Ty.array elem count).Coherent target ↔ 0 ≤ count := by
  constructor
  · intro coherent
    exact coherent.counted
  · intro counted
    exact ⟨trivial, counted, trivial, trivial, trivial, trivial, trivial, trivial⟩

theorem coherent_ptr {t : PtrTy} : (Ty.ptr t).Coherent target := by
  refine ⟨?_, ?_, ?_, ?_, ?_, ?_, ?_, ?_⟩ <;> trivial

theorem coherent_tuple_iff {fields : List Field} {size : Int} :
    (Ty.tuple fields size).Coherent target ↔ (Ty.tuple fields size).FieldsInside target := by
  constructor
  · intro coherent
    exact coherent.fields_inside
  · intro inside
    exact ⟨trivial, trivial, inside, trivial, trivial, trivial, trivial, trivial⟩

theorem coherent_enum_iff {e : EnumTy} :
    (Ty.enum e).Coherent target ↔
      (Ty.enum e).TagsFit ∧ (Ty.enum e).TagsInside ∧ (Ty.enum e).TagsReflected target := by
  constructor
  · intro coherent
    exact ⟨coherent.tags_fit, coherent.tags_inside, coherent.tags_reflected⟩
  · rintro ⟨fit, inside, reflected⟩
    exact ⟨trivial, trivial, trivial, trivial, trivial, fit, inside, reflected⟩

end Ty

end AbstractMachine
