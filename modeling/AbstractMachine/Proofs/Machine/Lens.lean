/-
# AbstractMachine.Proofs.Machine.Lens — places of parts

The layout of a type is computed twice. The codec takes slices of the bytes of a value; a projection
moves a pointer, and works out how well the new place is aligned. Here both are shown to mean the same:
the place of a component holds the component of what the whole place holds, a store to it changes that
component of the whole and no other, and the place of a payload holds the payload of the variant that
the discriminant names.

So a place of a tuple or array is a lens: to get after a put gives what was put, and to put changes
nothing else. That rests on three things: the access to a part is granted because that to the whole was
(`Memory.load_part`), a store to the part is an overlay over the whole (`Memory.load_of_store_part`), and
the slots of a type are apart (`Ty.decode_overlay`). What has no lens is shown at the end: a size that is
no number of bytes, a tag that is not inside its enum, and pointers without bytes each lose a value.
-/
import AbstractMachine.Proofs.Layout.Tags
import AbstractMachine.Proofs.Machine.Projection
import AbstractMachine.Proofs.Memory.Contents
import AbstractMachine.Proofs.Representation.Components

namespace AbstractMachine

variable {target : Target}

/-! ## Where the parts of a place are -/

/-- The pointer to a field, if what it is a field of is pointed to. -/
def Field.pointer (f : Field) (p : Pointer) : Pointer :=
  { p with addr := p.addr + f.offset }

/-- The distance that the alignment of a slot is worked out for: the offset of a field, but the size of
an element whatever its number. -/
def Ty.grain (target : Target) : Ty → Field → Int
  | .array elem _, _ => elem.byteSize target
  | _, f => f.offset

/-- The place of a slot. -/
def PlaceTy.slot (target : Target) (place : PlaceTy) (f : Field) : PlaceTy where
  ty := f.ty
  align := restrictAlign place.align (place.ty.grain target f)

theorem Ty.grain_dvd {ty : Ty} {f : Field} (hf : f ∈ ty.slots target) :
    ty.grain target f ∣ f.offset := by
  cases ty with
  | array elem count =>
      obtain ⟨k, -, rfl⟩ := List.mem_map.1 hf
      exact Dvd.intro_left _ rfl
  | _ => exact dvd_refl _

/-- A slot begins and ends inside its type, if the fields of tuples do. -/
theorem Ty.slot_within {ty : Ty} (within : ty.FieldsWithin target) {f : Field}
    (hf : f ∈ ty.slots target) (nonneg : 0 ≤ f.ty.byteSize target) :
    (f.extent target).Within (ty.byteSize target) := by
  cases ty with
  | tuple fields size => exact within f hf
  | array elem count =>
      obtain ⟨k, hk, rfl⟩ := List.mem_map.1 hf
      rw [List.mem_range] at hk
      have nonneg : 0 ≤ elem.byteSize target := nonneg
      have low : 0 ≤ k * elem.byteSize target := Int.mul_nonneg (Int.natCast_nonneg k) nonneg
      have high : (k + 1) * elem.byteSize target ≤ count * elem.byteSize target :=
        Int.mul_le_mul_of_nonneg_right (by omega) nonneg
      rw [Int.add_mul, Int.one_mul, Int.mul_comm count] at high
      have start : k * elem.byteSize target ≤ elem.byteSize target * count := by omega
      exact ⟨⟨low, start⟩, Int.add_nonneg low nonneg, high⟩
  | _ => cases hf

theorem isAligned_eq_true_iff {addr align : Int} :
    isAligned addr align = .ok true ↔ align ≠ 0 ∧ align ∣ addr := by
  by_cases zero : align = 0
  · simp [isAligned, zero]
  · rw [isAligned_of_ne_zero zero, Except.ok.injEq, beq_iff_eq]
    exact ⟨fun multiple => ⟨zero, Int.dvd_of_emod_eq_zero multiple⟩,
      fun h => Int.emod_eq_zero_of_dvd h.2⟩

/-! ## Access to a part -/

namespace Memory

variable {m m' : Memory} {p : Pointer} {size align unit d n : Int} {data bytes : List AbsByte}
  {a : Allocation} {place : PlaceTy} {es : List Value} {v : Value} {f : Field} {i : Nat}

/-- What an access hits lies in an allocation. -/
theorem Hits.lies (hits : m.Hits p (place.byteSize m.target) a) (laid : m.Laid)
    (nonneg : 0 ≤ place.byteSize m.target) (power : PowerOfTwo place.align)
    (aligned : place.align ∣ p.addr) : m.Lies a p place := by
  obtain ⟨id, named, found⟩ := hits.named
  obtain rfl := laid.numbered.id_eq found
  have start := hits.start
  have stop := hits.stop
  exact ⟨found, hits.live, named, ⟨start, by omega⟩, ⟨by omega, stop⟩, power, aligned⟩

/-- A part of what was loaded can be loaded by itself. -/
theorem load_part (laid : m.Laid) (power : PowerOfTwo align)
    (loaded : m.load p size align = .ok data) (nonneg : 0 ≤ n)
    (within : (Chunk.mk d n).Inside size) (dvd : unit ∣ d) :
    m.load { p with addr := p.addr + d } n (restrictAlign align unit) =
      .ok (Slice.read data d (d + n)) := by
  obtain ⟨aligned, granted⟩ := load_eq_ok_iff.1 loaded
  obtain ⟨power', dvd₁, dvd₂⟩ := powerOfTwo_restrictAlign power unit
  have aligned' : isAligned (p.addr + d) (restrictAlign align unit) = .ok true := by
    have multiple := (isAligned_eq_true_iff.1 aligned).2
    exact isAligned_eq_true_iff.2
      ⟨power'.ne_zero, Int.dvd_add (dvd₁.trans multiple) (dvd₂.trans dvd)⟩
  refine load_eq_ok_iff.2 ⟨aligned', ?_⟩
  by_cases empty : n = 0
  · refine .inl ⟨empty, ?_⟩
    rw [empty, Int.add_zero, Slice.read_self]
  · have bounds : 0 ≤ d ∧ d + n ≤ size := by
      rw [Chunk.inside_iff] at within
      dsimp only at within
      omega
    obtain ⟨none, -⟩ | ⟨-, a, hits, rfl⟩ := granted
    · omega
    · have start := hits.start
      have stop := hits.stop
      have positive : 0 < a.addr := by
        obtain ⟨id, -, found⟩ := hits.named
        exact (laid.placed a (mem_allocations_of_allocation found)).positive
      refine .inr ⟨empty, a, ⟨hits.named, hits.live, ?_, ?_, ?_⟩, ?_⟩
      · show p.addr + d ≠ 0
        omega
      · show a.addr ≤ p.addr + d
        omega
      · show p.addr + d + n ≤ a.stop
        omega
      · rw [Slice.read_read a.contents (by omega) hits.inside nonneg within]
        show _ = Slice.read a.contents (p.addr + d - a.addr) (p.addr + d - a.addr + n)
        rw [show p.addr + d - a.addr = p.addr - a.addr + d by omega]

/-- Where as many bytes can be loaded, bytes can be stored. -/
theorem exists_store_of_load (loaded : m.load p bytes.length align = .ok data) :
    ∃ m', m.store p bytes align = .ok m' := by
  obtain ⟨aligned, ⟨none, -⟩ | ⟨some, a, hits, -⟩⟩ := load_eq_ok_iff.1 loaded
  · have empty : bytes = [] := List.length_eq_zero_iff.1 (by omega)
    exact ⟨m, store_eq_ok_iff.2 ⟨aligned, .inl ⟨empty, rfl⟩⟩⟩
  · have filled : bytes ≠ [] := by
      rintro rfl
      exact some rfl
    exact ⟨_, store_eq_ok_iff.2 ⟨aligned, .inr ⟨filled, a, hits, rfl⟩⟩⟩

/-- A store to a part is an overlay over the whole. -/
theorem load_of_store_part (numbered : m.Numbered) (loaded : m.load p size align = .ok data)
    (nonneg : 0 ≤ size) (within : (Chunk.mk d bytes.length).Inside size) {align' : Int}
    (stored : m.store { p with addr := p.addr + d } bytes align' = .ok m') :
    m'.load p size align = .ok (Slice.overlay data d bytes) := by
  have written := overwritten_of_store numbered stored
  obtain ⟨new, loaded'⟩ := (written.granted p size align nonneg).2 ⟨data, loaded⟩
  obtain ⟨length, length', each⟩ := written.bytes p size align data new nonneg loaded loaded'
  let piece : Piece AbsByte := ⟨d, bytes⟩
  have fits : piece.extent.Inside data.length := by rwa [length]
  have kept : (Slice.overlay data d bytes).length = data.length :=
    Slice.length_overlay_of_inside data piece fits
  rw [loaded', Except.ok.injEq]
  apply List.ext_getElem?
  intro i
  by_cases hi : (i : Int) < size
  · have laid : (Slice.overlay data d bytes)[i]? = _ := Slice.getElem?_overlay data piece fits i
    rw [laid, each i hi]
    simp only [piece, Piece.extent, Chunk.mem_iff, true_and]
    by_cases here : d ≤ i ∧ i < d + bytes.length
    · rw [if_pos here, if_pos (by omega)]
      congr 1
      omega
    · rw [if_neg here, if_neg (by omega)]
  · rw [List.getElem?_eq_none (by omega), List.getElem?_eq_none (by omega)]

/-! ## Values in the parts of a place -/

/-- What a typed load finds at a tuple or array type, it finds in bytes. -/
theorem exists_of_typedLoad (loaded : m.typedLoad p place = .ok v) :
    ∃ data, m.load p (place.ty.byteSize m.target) place.align = .ok data ∧
      (data.length : Int) = place.ty.byteSize m.target ∧
      place.ty.decode m.target data = .ok (some v) := by
  obtain ⟨data, loaded, decoded⟩ := typedLoad_eq_ok_iff.1 loaded
  exact ⟨data, loaded, Ty.length_of_decode decoded, decoded⟩

/-- The place of a component holds the component. -/
theorem typedLoad_slot (laid : m.Laid) (power : PowerOfTwo place.align)
    (inside : place.ty.FieldsInside m.target) (loaded : m.typedLoad p place = .ok (.tuple es))
    (at_ : (place.ty.slots m.target)[i]? = some f) :
    ∃ v, es[i]? = some v ∧ m.typedLoad (f.pointer p) (place.slot m.target f) = .ok v := by
  obtain ⟨data, loaded, -, decoded⟩ := exists_of_typedLoad loaded
  obtain ⟨v, there, found⟩ := Ty.exists_of_slot decoded at_
  have hf := List.mem_of_getElem? at_
  have nonneg : 0 ≤ f.ty.byteSize m.target := by
    have := Ty.length_of_decode found
    omega
  refine ⟨v, there, typedLoad_eq_ok_iff.2 ⟨_, ?_, found⟩⟩
  exact load_part laid power loaded nonneg (Ty.slot_inside inside hf nonneg) (Ty.grain_dvd hf)

/-- A store to the place of a component changes the component. -/
theorem typedLoad_of_typedStore_slot (laid : m.Laid) (width : 1 ≤ m.target.ptrSize)
    (legible : place.ty.Every (Ty.Legible m.target)) (loaded : m.typedLoad p place = .ok (.tuple es))
    (at_ : (place.ty.slots m.target)[i]? = some f)
    (stored : m.typedStore (f.pointer p) v (place.slot m.target f) = .ok m') :
    m'.typedLoad p place = .ok (.tuple (es.set i v)) := by
  obtain ⟨data, loaded, length, decoded⟩ := exists_of_typedLoad loaded
  obtain ⟨bytes, encoded, stored⟩ := typedStore_eq_ok_iff.1 stored
  obtain ⟨wellFormed, made⟩ := Ty.encode_eq_ok_iff.1 encoded
  have hf := List.mem_of_getElem? at_
  have part : f.ty.Every (Ty.Legible m.target) := legible.slot hf
  have size : (bytes.length : Int) = f.ty.byteSize m.target :=
    Ty.length_bytes (part.imp fun _ l => l.toLaidOut) wellFormed made
  have back : f.ty.decode m.target bytes = .ok (some v) :=
    Ty.decode_of_fillsPadding width part wellFormed made (.refl f.ty bytes)
  have inside := legible.here.fields_inside
  have within := Ty.slot_inside inside hf (by omega)
  rw [Field.extent, ← size] at within
  have loaded' := load_of_store_part laid.numbered loaded (by omega) within stored
  have same := target_of_outline_eq (outline_of_store laid.numbered stored)
  refine typedLoad_eq_ok_iff.2 ⟨Slice.overlay data f.offset bytes, ?_, ?_⟩
  · rw [same]
    exact loaded'
  · rw [same]
    exact Ty.decode_overlay inside legible.here.fields_apart decoded at_ size back

/-- What the place of a component can be asked to hold, if the tags in its type can be written. -/
theorem exists_typedStore_slot (laid : m.Laid) (power : PowerOfTwo place.align)
    (legible : place.ty.Every (Ty.Legible m.target)) (loaded : m.typedLoad p place = .ok (.tuple es))
    (at_ : (place.ty.slots m.target)[i]? = some f) (fit : f.ty.Every Ty.TagsFit)
    (wellFormed : f.ty.wellFormed m.target v = .ok true) :
    ∃ m', m.typedStore (f.pointer p) v (place.slot m.target f) = .ok m' := by
  obtain ⟨data, loaded, -, -⟩ := exists_of_typedLoad loaded
  obtain ⟨bytes, made⟩ := Ty.exists_bytes fit wellFormed
  have hf := List.mem_of_getElem? at_
  have part : f.ty.Every (Ty.Legible m.target) := legible.slot hf
  have size : (bytes.length : Int) = f.ty.byteSize m.target :=
    Ty.length_bytes (part.imp fun _ l => l.toLaidOut) wellFormed made
  have nonneg : 0 ≤ f.ty.byteSize m.target := by omega
  have found := load_part laid power loaded nonneg
    (Ty.slot_inside legible.here.fields_inside hf nonneg) (Ty.grain_dvd hf)
  rw [← size] at found
  obtain ⟨m', stored⟩ := exists_store_of_load found
  exact ⟨m', typedStore_eq_ok_iff.2 ⟨bytes, Ty.encode_eq_ok_iff.2 ⟨wellFormed, made⟩, stored⟩⟩

/-- The place of the active payload holds the payload, and the discriminant is found where it is. -/
theorem typedLoad_payload {e : EnumTy} {tag : Int} (fill : (Ty.enum e).PayloadsFill m.target)
    (loaded : m.typedLoad p ⟨.enum e, align⟩ = .ok (.variant tag v)) :
    ∃ data variant, m.load p e.size align = .ok data ∧
      e.discriminator.decode m.target data = some tag ∧ e.variantAt tag = .ok variant ∧
      m.typedLoad p ⟨variant.ty, align⟩ = .ok v := by
  obtain ⟨data, read, -, decoded⟩ := exists_of_typedLoad loaded
  obtain ⟨-, n, variant, payload, found, at_, decoded, same⟩ := Ty.decode_enum_iff.1 decoded
  obtain ⟨rfl, rfl⟩ := Value.variant.inj same
  refine ⟨data, variant, read, found, elementAt_eq_ok_iff.2 ⟨n, rfl, at_⟩, ?_⟩
  refine typedLoad_eq_ok_iff.2 ⟨data, ?_, decoded⟩
  show m.load p (variant.ty.byteSize m.target) align = .ok data
  rw [fill variant (List.mem_of_getElem? at_)]
  exact read

/-- The pointer to a part can be moved to from the pointer to the whole. -/
theorem offsetInBounds_part (laid : m.Laid) (width : 1 ≤ m.target.ptrSize)
    (power : PowerOfTwo place.align)
    (loaded : m.load p (place.byteSize m.target) place.align = .ok data)
    (nonneg : 0 ≤ place.byteSize m.target) (start : 0 ≤ d ∧ d ≤ place.byteSize m.target)
    (address : place.byteSize m.target = 0 → m.target.addrInBounds p.addr = .ok true) :
    m.offsetInBounds p d = .ok { p with addr := p.addr + d } := by
  obtain ⟨aligned, ⟨empty, -⟩ | ⟨-, a, hits, -⟩⟩ := load_eq_ok_iff.1 loaded
  · obtain rfl : d = 0 := by omega
    have rest : m.target.isizeInBounds 0 = .ok true := by
      rw [Target.isizeInBounds_eq width, IntTy.isize]
      have pos := one_shiftLeft_pos (8 * m.target.ptrSize.toNat - 1)
      simp [IntTy.low, IntTy.high]
      omega
    refine offsetInBounds_eq_ok_iff.2 ⟨rest, ?_, ?_, rfl⟩
    · rw [Int.add_zero]
      exact address empty
    · rw [Int.add_zero, min_self, max_self, Int.sub_self, dereferenceable,
        checkPtr_zero (by decide) (Int.emod_one _)]
      rfl
  · have lies := hits.lies laid nonneg power (isAligned_eq_true_iff.1 aligned).2
    have stop : Between (place.ty.byteSize m.target) (d + PlaceTy.byteSize m.target ⟨.unit, 1⟩) :=
      .inl (by rwa [show PlaceTy.byteSize m.target ⟨.unit, 1⟩ = 0 from rfl, Int.add_zero])
    exact (lies.project laid (.inl start) stop powerOfTwo_one (one_dvd _) (one_dvd _)).1

/-- The place of a component is a lens into the place of the whole, which holds a tuple of values. -/
structure Lens (m : Memory) (p : Pointer) (place : PlaceTy) (es : List Value) (i : Nat) (f : Field) :
    Prop where
  /-- It holds the component. -/
  get : ∃ v, es[i]? = some v ∧ m.typedLoad (f.pointer p) (place.slot m.target f) = .ok v
  /-- What is stored to it becomes the component, and the others stay what they are. -/
  put : ∀ v m', m.typedStore (f.pointer p) v (place.slot m.target f) = .ok m' →
    m'.typedLoad p place = .ok (.tuple (es.set i v))
  /-- Every value of its type can be stored to it, if the tags in the type can be written. -/
  accepts : f.ty.Every Ty.TagsFit → ∀ v, f.ty.wellFormed m.target v = .ok true →
    ∃ m', m.typedStore (f.pointer p) v (place.slot m.target f) = .ok m'

/-- Every component of a legible type has its lens. -/
theorem lens_of_typedLoad (laid : m.Laid) (width : 1 ≤ m.target.ptrSize)
    (power : PowerOfTwo place.align) (legible : place.ty.Every (Ty.Legible m.target))
    (loaded : m.typedLoad p place = .ok (.tuple es))
    (at_ : (place.ty.slots m.target)[i]? = some f) : m.Lens p place es i f where
  get := typedLoad_slot laid power legible.here.fields_inside loaded at_
  put _ _ stored := typedLoad_of_typedStore_slot laid width legible loaded at_ stored
  accepts fit _ wellFormed := exists_typedStore_slot laid power legible loaded at_ fit wellFormed

end Memory

/-! ## Expressions for the parts of a place -/

namespace Machine

variable {s m : Machine} {root part : PlaceExpr} {p : Pointer} {place : PlaceTy} {f : Field} {i : Nat}

/-- An expression for the place of a component: of a field by its number, and of an element by an index
that is computed and is its number. -/
inductive Selects (m : Machine) (root : PlaceExpr) : Ty → Nat → PlaceExpr → Prop
  | field {fields : List Field} {size : Int} {i : Nat} :
      Selects m root (.tuple fields size) i (.field root i)
  | index {elem t : Ty} {count : Int} {i : Nat} {e : ValueExpr}
      (computed : evalValue e m = (.ok (.int i, t), m)) :
      Selects m root (.array elem count) i (.index root e)

/-- Projections go to the slots of a type. -/
theorem evalPlace_of_selects (run : evalPlace root s = (.ok (p, place), m))
    (at_ : (place.ty.slots m.target)[i]? = some f) (selects : Selects m root place.ty i part)
    (moved : m.store.memory.offsetInBounds p f.offset = .ok (f.pointer p)) :
    evalPlace part s = (.ok (f.pointer p, place.slot m.target f), m) := by
  have moved : offsetInBounds p f.offset m = (.ok (f.pointer p), m) := Prod.ext moved rfl
  obtain ⟨ty, align⟩ := place
  cases selects with
  | @field fields size _ =>
      have has : (Ty.tuple fields size).fieldAt i = .ok f := elementAt_eq_ok_iff.2 ⟨i, rfl, at_⟩
      rw [evalPlace, Action.apply_bind_of_ok run]
      simp only [has]
      rw [Action.apply_bind_of_ok (Action.ofExcept_eq_iff.2 ⟨rfl, rfl⟩)]
      exact Action.apply_bind_of_ok moved _
  | @index elem t count _ e computed =>
      obtain ⟨below, rfl⟩ := Ty.slots_array_eq_some_iff.1 at_
      have has : (Ty.array elem count).elementOffset m.target (.int i) =
          .ok (i * elem.byteSize m.target, elem, elem.byteSize m.target) := by
        simp [Ty.elementOffset, below, bind, Except.bind, pure, Except.pure]
      rw [evalPlace_index run computed, has]
      exact Action.apply_bind_of_ok moved _

theorem evalValue_discriminant {e : EnumTy} {align d : Int} {data : List AbsByte}
    (run : evalPlace root s = (.ok (p, ⟨.enum e, align⟩), m))
    (loaded : m.store.memory.load p e.size align = .ok data)
    (found : e.discriminator.decode m.target data = some d) :
    evalValue (.discriminant root) s = (.ok (.int d, e.discriminantTy), m) := by
  have read : onStore (Store.load p e.size align) m = (.ok data, m) := Prod.ext loaded rfl
  rw [evalValue, Action.apply_bind_of_ok run]
  simp only
  have target : getTarget m = (.ok m.target, m) := rfl
  rw [Action.apply_bind_of_ok read, Action.apply_bind_of_ok target]
  simp only [found]
  rfl

theorem evalPlace_downcast {e : EnumTy} {align d : Int} {variant : Variant}
    (run : evalPlace root s = (.ok (p, ⟨.enum e, align⟩), m)) (has : e.variantAt d = .ok variant) :
    evalPlace (.downcast root d) s = (.ok (p, ⟨variant.ty, align⟩), m) := by
  rw [evalPlace, Action.apply_bind_of_ok run]
  simp only [has]
  rfl

/-! ## Reachable memory -/

variable {chooser : Chooser} {calls : List Memory.Call}

/-- Projections agree with the representation. Where the memory of a machine was reached by any calls,
and a place of a legible type holds a tuple of values, each of its components has a lens, to which the
projection to that component goes; where the place holds a variant, the discriminant of the place names
it, and the place of its payload holds its payload. -/
theorem lens_of_reachable (width : 1 ≤ target.ptrSize)
    (reached : m.store.memory = (Memory.fresh target chooser).afterAll calls)
    (run : evalPlace root s = (.ok (p, place), m)) (power : PowerOfTwo place.align)
    (legible : place.ty.Every (Ty.Legible target)) :
    (∀ es, m.store.memory.typedLoad p place = .ok (.tuple es) →
      (place.ty.slots target).length = es.length ∧
      ∀ (i : Nat) f, (place.ty.slots target)[i]? = some f →
        m.store.memory.Lens p place es i f ∧
        (place.ty.FieldsWithin target →
          (place.byteSize target = 0 → target.addrInBounds p.addr = .ok true) →
          ∀ part, Selects m root place.ty i part →
            evalPlace part s = (.ok (f.pointer p, place.slot target f), m))) ∧
    ∀ d v, m.store.memory.typedLoad p place = .ok (.variant d v) →
      ∃ e variant, place.ty = .enum e ∧ e.variantAt d = .ok variant ∧
        evalValue (.discriminant root) s = (.ok (.int d, e.discriminantTy), m) ∧
        evalPlace (.downcast root d) s = (.ok (p, ⟨variant.ty, place.align⟩), m) ∧
        m.store.memory.typedLoad p ⟨variant.ty, place.align⟩ = .ok v := by
  have laid : m.store.memory.Laid := reached ▸ (Memory.Laid.fresh target chooser).afterAll calls
  obtain rfl : m.store.memory.target = target := by
    rw [reached, Memory.target_afterAll]
    rfl
  constructor
  · intro es loaded
    obtain ⟨data, read, length, decoded⟩ := Memory.exists_of_typedLoad loaded
    refine ⟨(Ty.decode_eq_tuple_iff.1 decoded).2.2.length_eq, fun i f at_ => ⟨?_, ?_⟩⟩
    · exact Memory.lens_of_typedLoad laid width power legible loaded at_
    · intro within address part selects
      obtain ⟨v, -, found⟩ := Ty.exists_of_slot decoded at_
      have nonneg := Ty.length_of_decode found
      have ends := (Ty.slot_within within (List.mem_of_getElem? at_) (by omega)).1
      have moved := Memory.offsetInBounds_part laid width power read
        (by show 0 ≤ place.ty.byteSize _; omega) ends address
      exact evalPlace_of_selects run at_ selects moved
  · intro d v loaded
    obtain ⟨data, -, -, decoded⟩ := Memory.exists_of_typedLoad loaded
    obtain ⟨ty, align⟩ := place
    cases ty with
    | enum e =>
        obtain ⟨data, variant, read, found, has, payload⟩ :=
          Memory.typedLoad_payload legible.here.payloads_fill loaded
        exact ⟨e, variant, rfl, has, evalValue_discriminant run read found,
          evalPlace_downcast run has, payload⟩
    | bool => simp [Ty.decode_bool_iff] at decoded
    | int t => simp [Ty.decode_int_iff] at decoded
    | ptr t => simp [Ty.decode_ptr_iff] at decoded
    | tuple fields size => simp [Ty.decode_tuple_iff] at decoded
    | array elem count => simp [Ty.decode_array_iff] at decoded
    | union u => simp [Ty.decode_union_iff] at decoded

/-- A reference that may be absent, and behind it a row of three numbers. -/
def referenceAndRow : Ty := .tuple [⟨0, .optionRef ⟨2, .little⟩⟩, row] 8

theorem every_sound_referenceAndRow : referenceAndRow.Every (Ty.Sound ⟨2, .little⟩) := by
  have numbers : row.ty.Every (Ty.Sound ⟨2, .little⟩) :=
    .intro Ty.sound_array (List.forall_mem_singleton.2 (.intro Ty.sound_int nofun))
  have inside : referenceAndRow.FieldsInside ⟨2, .little⟩ :=
    List.forall_mem_cons.2 ⟨by decide, List.forall_mem_singleton.2 (by decide)⟩
  have apart : referenceAndRow.FieldsApart ⟨2, .little⟩ :=
    List.pairwise_pair.2 (by decide)
  refine .intro (Ty.sound_tuple_iff.2 ⟨by decide, inside, apart⟩) (List.forall_mem_cons.2 ⟨?_, ?_⟩)
  · exact Ty.sound_nullable (by decide) rfl
  · exact List.forall_mem_singleton.2 numbers

/-- A machine at rest, with such a memory. -/
def resting (memory : Memory) : Machine where
  program := { functions := {} }
  store := { memory }

/-- Eight bytes that hold a reference to themselves and three numbers. -/
def selfAndNumbers : Memory :=
  (Memory.fresh ⟨2, .little⟩ fun _ _ => .ok 16).afterAll [.allocate 8 2 .stack,
    .store ⟨16, some ⟨0⟩⟩
      (AbsByte.ofData [16, 0] (some ⟨0⟩) ++ AbsByte.ofData [2, 0, 3, 0, 4, 0] none) 2]

/-- The place of a type at a pointer, however little it is aligned. -/
def placeAt (p : Pointer) (ty : Ty) (align : Int) : PlaceExpr :=
  .deref (.constant (.ptr p) (.ptr .raw)) ⟨ty, align⟩

/-- The row can be reached behind the reference, and written to; and the reference in front of it is
found as the payload of its variant. -/
theorem lens_referenceAndRow :
    let whole := placeAt ⟨16, some ⟨0⟩⟩ referenceAndRow 2
    let m := resting selfAndNumbers
    evalPlace (.field whole 1) m = (.ok (⟨18, some ⟨0⟩⟩, ⟨row.ty, 2⟩), m) ∧
      m.store.memory.typedLoad ⟨18, some ⟨0⟩⟩ ⟨row.ty, 2⟩ =
        .ok (.tuple [.int 2, .int 3, .int 4]) ∧
      (∃ m', m.store.memory.typedStore ⟨18, some ⟨0⟩⟩ (.tuple [.int 5, .int 6, .int 7]) ⟨row.ty, 2⟩ =
          .ok m' ∧
        m'.typedLoad ⟨16, some ⟨0⟩⟩ ⟨referenceAndRow, 2⟩ =
          .ok (.tuple [.nonnull ⟨16, some ⟨0⟩⟩, .tuple [.int 5, .int 6, .int 7]])) ∧
      evalPlace (.downcast (.field whole 0) 1) m =
        (.ok (⟨16, some ⟨0⟩⟩, ⟨.tuple [⟨0, .ptr (.ref false { size := 4, align := 4 })⟩] 2, 2⟩), m) ∧
      m.store.memory.typedLoad ⟨16, some ⟨0⟩⟩
        ⟨.tuple [⟨0, .ptr (.ref false { size := 4, align := 4 })⟩] 2, 2⟩ =
          .ok (.tuple [.ptr ⟨16, some ⟨0⟩⟩]) := by
  have powerOfTwo_two : PowerOfTwo 2 := ⟨1, rfl⟩
  have legible := every_sound_referenceAndRow.imp fun _ sound => sound.legible
  have within : referenceAndRow.FieldsWithin ⟨2, .little⟩ := List.forall_mem_cons.2
    ⟨⟨⟨by decide, by decide⟩, by decide, by decide⟩,
      List.forall_mem_singleton.2 ⟨⟨by decide, by decide⟩, by decide, by decide⟩⟩
  have run : evalPlace (placeAt ⟨16, some ⟨0⟩⟩ referenceAndRow 2) (resting selfAndNumbers) =
    (.ok (⟨16, some ⟨0⟩⟩, ⟨referenceAndRow, 2⟩), resting selfAndNumbers) := rfl
  have parts := (lens_of_reachable (by decide) rfl run powerOfTwo_two legible).1
    [.nonnull ⟨16, some ⟨0⟩⟩, .tuple [.int 2, .int 3, .int 4]] rfl
  obtain ⟨lens, projects⟩ := parts.2 1 row rfl
  obtain ⟨_, ⟨⟩, found⟩ := lens.get
  have front : Field.mk 0 (Ty.optionRef ⟨2, .little⟩) ∈ referenceAndRow.slots ⟨2, .little⟩ :=
    List.mem_cons_self
  have run' := (parts.2 0 _ rfl).2 within (fun _ => rfl) _ .field
  obtain ⟨_, _, ⟨⟩, ⟨⟩, -, downcast, payload⟩ := (lens_of_reachable (by decide) rfl run' powerOfTwo_two
    (legible.slot front)).2 1 (.tuple [.ptr ⟨16, some ⟨0⟩⟩]) rfl
  have scalar : (Ty.int ⟨false, 2⟩).Every Ty.TagsFit := .intro trivial nofun
  have fit : row.ty.Every Ty.TagsFit := .intro trivial (List.forall_mem_singleton.2 scalar)
  obtain ⟨m', stored⟩ := lens.accepts fit (.tuple [.int 5, .int 6, .int 7]) rfl
  exact ⟨projects within (fun _ => rfl) _ .field, found, ⟨m', stored, lens.put _ m' stored⟩, downcast,
    payload⟩

/-! ### Places without a lens -/

/-- A layout that keeps its components inside and apart, and whose variants can be told apart. It leaves
open whether sizes are numbers of bytes, and whether tags are inside. -/
structure Separate (target : Target) (t : Ty) : Prop where
  fields_inside : t.FieldsInside target
  fields_apart : t.FieldsApart target
  chunks_inside : t.ChunksInside
  chunks_apart : t.ChunksApart
  payloads_fill : t.PayloadsFill target
  tags_clear : t.TagsClear target
  tags_read : t.TagsRead target

theorem separate_tuple {fields : List Field} {size : Int}
    (inside : (Ty.tuple fields size).FieldsInside target)
    (apart : (Ty.tuple fields size).FieldsApart target) : Separate target (.tuple fields size) :=
  ⟨inside, apart, trivial, trivial, trivial, trivial, trivial⟩

theorem separate_enum {e : EnumTy} (fill : (Ty.enum e).PayloadsFill target)
    (clear : (Ty.enum e).TagsClear target) (read : (Ty.enum e).TagsRead target) :
    Separate target (.enum e) :=
  ⟨trivial, trivial, trivial, trivial, fill, clear, read⟩

theorem every_separate_empty {size : Int} : (Ty.tuple [] size).Every (Separate target) :=
  .intro (separate_tuple nofun List.Pairwise.nil) nofun

/-- Where a memory holds a tuple of values, a value is stored to the place of its first component, but
then the memory does not hold the tuple with that value. -/
structure Loses (target : Target) (calls : List Memory.Call) (p : Pointer) (whole : Ty)
    (es : List Value) (ty : Ty) (v : Value) : Prop where
  separate : whole.Every (Separate target)
  first : (whole.slots target).head? = some ⟨0, ty⟩
  wellFormed : ty.wellFormed target v = .ok true
  holds : ((Memory.fresh target fun _ _ => .ok 8).afterAll calls).typedLoad p ⟨whole, 1⟩ =
    .ok (.tuple es)
  changes : ∃ m', ((Memory.fresh target fun _ _ => .ok 8).afterAll calls).typedStore p v ⟨ty, 1⟩ =
    .ok m' ∧ m'.typedLoad p ⟨whole, 1⟩ ≠ .ok (.tuple (es.set 0 v))

/-- An enum of two variants without bytes behind the tag. One has a field of less than none. -/
def hollowVariant : EnumTy where
  variants := [⟨.tuple [] 1, [⟨0, ⟨false, 1⟩, 0⟩]⟩,
    ⟨.tuple [⟨1, .tuple [] (-1)⟩] 1, [⟨0, ⟨false, 1⟩, 1⟩]⟩]
  discriminator := tagDiscriminator ⟨false, 1⟩ 2
  discriminantTy := .int ⟨true, 8⟩
  size := 1

/-- An enum of one variant, whose tag is behind the enum. -/
def strayTag : EnumTy where
  variants := [⟨.tuple [] 1, [⟨1, ⟨false, 1⟩, 0⟩]⟩]
  discriminator := .known 0
  discriminantTy := .int ⟨true, 8⟩
  size := 1

theorem not_covers_empty {size i : Int} : ¬ (Ty.tuple [] size).Covers target i := by
  rintro (_ | _ | _ | hf)
  cases hf

theorem every_separate_hollowVariant : (Ty.enum hollowVariant).Every (Separate target) := by
  have fill : (Ty.enum hollowVariant).PayloadsFill target :=
    List.forall_mem_cons.2 ⟨rfl, List.forall_mem_singleton.2 rfl⟩
  have clear : (Ty.enum hollowVariant).TagsClear target := by
    refine List.forall_mem_cons.2 ⟨fun _ _ _ _ => not_covers_empty,
      List.forall_mem_singleton.2 fun _ _ _ _ covered => ?_⟩
    cases covered with
    | field hf covered =>
        obtain rfl := List.mem_singleton.1 hf
        exact not_covers_empty covered
  have read : (Ty.enum hollowVariant).TagsRead target := by
    refine Ty.tagsRead_of_front rfl fun n v at_ => ?_
    match n, at_ with
    | 0, rfl => exact ⟨rfl, by decide, rfl⟩
    | 1, rfl => exact ⟨rfl, by decide, rfl⟩
  have inside : (Chunk.mk 1 (-1)).Inside 1 := by decide
  have hollow : (Ty.tuple [⟨1, .tuple [] (-1)⟩] 1).Every (Separate target) :=
    .intro (separate_tuple (List.forall_mem_singleton.2 inside) (List.pairwise_singleton _ _))
      (List.forall_mem_singleton.2 every_separate_empty)
  exact .intro (separate_enum fill clear read)
    (List.forall_mem_cons.2 ⟨every_separate_empty, List.forall_mem_singleton.2 hollow⟩)

theorem every_separate_strayTag : (Ty.enum strayTag).Every (Separate target) := by
  have fill : (Ty.enum strayTag).PayloadsFill target := List.forall_mem_singleton.2 rfl
  have clear : (Ty.enum strayTag).TagsClear target :=
    List.forall_mem_singleton.2 fun _ _ _ _ => not_covers_empty
  have read : (Ty.enum strayTag).TagsRead target := by
    intro n v payload bytes tagged at_ _ _ _
    match n, at_ with
    | 0, rfl => rfl
  exact .intro (separate_enum fill clear read) (List.forall_mem_singleton.2 every_separate_empty)

/-- What is stored as the second variant is not read as anything. -/
theorem loses_hollowVariant : Loses .standard
    [.allocate 1 1 .stack, .store ⟨8, some ⟨0⟩⟩ [.init 0 none] 1] ⟨8, some ⟨0⟩⟩
    (.tuple [⟨0, .enum hollowVariant⟩] 1) [.variant 0 (.tuple [])]
    (.enum hollowVariant) (.variant 1 (.tuple [.tuple []])) where
  separate := .intro (separate_tuple (List.forall_mem_singleton.2 (by decide))
    (List.pairwise_singleton _ _)) (List.forall_mem_singleton.2 every_separate_hollowVariant)
  first := rfl
  wellFormed := rfl
  holds := rfl
  changes := ⟨_, rfl, nofun⟩

/-- The tag goes to the number behind the enum. -/
theorem loses_strayTag : Loses .standard
    [.allocate 2 1 .stack, .store ⟨8, some ⟨0⟩⟩ [.init 0 none, .init 7 none] 1] ⟨8, some ⟨0⟩⟩
    (.tuple [⟨0, .enum strayTag⟩, ⟨1, .int ⟨false, 1⟩⟩] 2) [.variant 0 (.tuple []), .int 7]
    (.enum strayTag) (.variant 0 (.tuple [])) where
  separate := by
    have number : (Ty.int ⟨false, 1⟩).Every (Separate .standard) :=
      .intro ⟨trivial, trivial, trivial, trivial, trivial, trivial, trivial⟩ nofun
    refine .intro (separate_tuple (List.forall_mem_cons.2 ⟨by decide,
      List.forall_mem_singleton.2 (by decide)⟩) (List.pairwise_pair.2 (by decide))) ?_
    exact List.forall_mem_cons.2 ⟨every_separate_strayTag, List.forall_mem_singleton.2 number⟩
  first := rfl
  wellFormed := rfl
  holds := rfl
  changes := ⟨_, rfl, nofun⟩

/-- Pointers without bytes do not keep their provenance. -/
theorem loses_provenance : Loses ⟨0, .little⟩ [] ⟨1, none⟩ (.tuple [⟨0, .ptr .raw⟩] 0)
    [.ptr ⟨0, none⟩] (.ptr .raw) (.ptr ⟨0, some ⟨3⟩⟩) where
  separate := by
    have pointer : (Ty.ptr .raw).Every (Separate ⟨0, .little⟩) :=
      .intro ⟨trivial, trivial, trivial, trivial, trivial, trivial, trivial⟩ nofun
    exact .intro (separate_tuple (List.forall_mem_singleton.2 (by decide))
      (List.pairwise_singleton _ _)) (List.forall_mem_singleton.2 pointer)
  first := rfl
  wellFormed := rfl
  holds := rfl
  changes := ⟨_, rfl, nofun⟩

/-- The laws need all that is asked for: sizes that are numbers of bytes, tags inside, pointers with
bytes, and for a projection an address to start from, where the place has no bytes. -/
theorem laws_break :
    Loses .standard [.allocate 1 1 .stack, .store ⟨8, some ⟨0⟩⟩ [.init 0 none] 1] ⟨8, some ⟨0⟩⟩
        (.tuple [⟨0, .enum hollowVariant⟩] 1) [.variant 0 (.tuple [])]
        (.enum hollowVariant) (.variant 1 (.tuple [.tuple []])) ∧
      Loses .standard [.allocate 2 1 .stack, .store ⟨8, some ⟨0⟩⟩ [.init 0 none, .init 7 none] 1]
        ⟨8, some ⟨0⟩⟩ (.tuple [⟨0, .enum strayTag⟩, ⟨1, .int ⟨false, 1⟩⟩] 2)
        [.variant 0 (.tuple []), .int 7] (.enum strayTag) (.variant 0 (.tuple [])) ∧
      Loses ⟨0, .little⟩ [] ⟨1, none⟩ (.tuple [⟨0, .ptr .raw⟩] 0) [.ptr ⟨0, none⟩]
        (.ptr .raw) (.ptr ⟨0, some ⟨3⟩⟩) ∧
      let m := resting (Memory.fresh .standard fun _ _ => .ok 8)
      let whole := Ty.tuple [⟨0, .unit⟩] 0
      whole.Every (Separate .standard) ∧
        m.store.memory.typedLoad ⟨2 ^ 64, none⟩ ⟨whole, 1⟩ = .ok (.tuple [.tuple []]) ∧
        evalPlace (placeAt ⟨2 ^ 64, none⟩ whole 1) m = (.ok (⟨2 ^ 64, none⟩, ⟨whole, 1⟩), m) ∧
        (evalPlace (.field (placeAt ⟨2 ^ 64, none⟩ whole 1) 0) m).1 =
          .error (.undefined .offsetOverflow) := by
  refine ⟨loses_hollowVariant, loses_strayTag, loses_provenance, ?_, rfl, rfl, rfl⟩
  exact .intro (separate_tuple (List.forall_mem_singleton.2 (by decide))
    (List.pairwise_singleton _ _)) (List.forall_mem_singleton.2 every_separate_empty)

end Machine

end AbstractMachine
