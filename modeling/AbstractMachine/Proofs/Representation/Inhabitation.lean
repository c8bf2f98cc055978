/-
# AbstractMachine.Proofs.Representation.Inhabitation — which types have a value

A type says of itself whether it is inhabited, by asking its components: a tuple all of its fields, an
enum one of its variants, an array that has elements their type. Pointers it does not ask, and takes
all of them to be inhabited. But a safe pointer to what is not inhabited has no address that it may
have, so it is refused wherever it is read or written, and a type that needs one has no value.

What there is a value for is `Ty.Populated`. At a layout that makes sense, the populated types are
those that have well-formed values, and those that some bytes stand for a value of
(`Ty.populated_iff`). All of them say that they are inhabited. The converse holds where every safe
pointer in the type is to something inhabited.
-/
import AbstractMachine.Layout
import AbstractMachine.Proofs.Operator
import AbstractMachine.Proofs.Representation.RoundTrip
import AbstractMachine.Proofs.Representation.Validity

namespace AbstractMachine

variable {target : Target}

/-! ## Addresses below the limit -/

namespace Target

variable {limit addr : Int}

/-- There is a limit if pointers have no negative number of bytes. -/
theorem addrLimit_eq_ok_iff :
    target.addrLimit = .ok limit ↔ 0 ≤ target.ptrSize ∧ limit = target.limit := by
  rw [addrLimit, shiftedOne, ptrBits]
  by_cases nonneg : 0 ≤ target.ptrSize
  · have width : (8 * target.ptrSize).toNat = 8 * target.ptrSize.toNat := by omega
    rw [if_neg (by omega), width, Except.ok.injEq, eq_comm]
    exact (and_iff_right nonneg).symm
  · rw [if_pos (by omega)]
    constructor
    · rintro ⟨⟩
    · rintro ⟨width, -⟩
      exact absurd width nonneg

theorem addrInBounds_of_addrLimit (h : target.addrLimit = .ok limit) (nonneg : 0 ≤ addr)
    (below : addr < limit) : target.addrInBounds addr = .ok true := by
  obtain ⟨width, rfl⟩ := addrLimit_eq_ok_iff.1 h
  rw [addrInBounds, IntTy.canRepresent_eq_true_iff]
  exact ⟨width, by simp [IntTy.usize], fitsBytes_unsigned.2 ⟨nonneg, below⟩⟩

end Target

namespace Ty

/-! ## Types with values -/

/-- A type has a value as far as its components tell, pointers included: what a safe pointer points to
has to be inhabited. -/
inductive Populated : Ty → Prop
  | bool : Populated .bool
  | int {t : IntTy} : Populated (.int t)
  | ptr {t : PtrTy} : (∀ p, t.safePointee = some p → p.inhabited = true) → Populated (.ptr t)
  | tuple {fields : List Field} {size : Int} : (∀ f ∈ fields, Populated f.ty) →
      Populated (.tuple fields size)
  | array {elem : Ty} {count : Int} : (count ≠ 0 → Populated elem) → Populated (.array elem count)
  | union {u : UnionTy} : Populated (.union u)
  | enum {e : EnumTy} {v : Variant} : v ∈ e.variants → Populated v.ty → Populated (.enum e)

/-- What a safe pointer points to is inhabited. -/
def PointeeInhabited : Ty → Prop
  | .ptr t => ∀ p, t.safePointee = some p → p.inhabited = true
  | _ => True

/-- There are addresses, and one of them is aligned as a safe pointer has to be. -/
def Addressable (target : Target) : Ty → Prop
  | .ptr t => ∃ limit, target.addrLimit = .ok limit ∧
      ∀ p, t.safePointee = some p → 1 ≤ p.align ∧ p.align < limit
  | _ => True

variable {ty : Ty} {v : Value}

/-! ## What types say of themselves -/

theorem inhabited_array_iff {elem : Ty} {count : Int} :
    (Ty.array elem count).inhabited = true ↔ count = 0 ∨ elem.inhabited = true := by
  rw [Ty.inhabited, Bool.or_eq_true, beq_iff_eq]

/-- A type with values says that it is inhabited. -/
theorem Populated.inhabited (h : ty.Populated) : ty.inhabited = true := by
  induction h with
  | bool | int | ptr | union => rfl
  | tuple _ ih => exact inhabited_tuple_iff.2 ih
  | @array elem count _ ih =>
      rw [inhabited_array_iff]
      by_cases empty : count = 0
      · exact .inl empty
      · exact .inr (ih empty)
  | enum mem _ ih => exact inhabited_enum_iff.2 ⟨_, mem, ih⟩

/-- A type that says that it is inhabited has values, if its safe pointers do. -/
theorem populated_of_inhabited (pointees : ty.Every PointeeInhabited)
    (h : ty.inhabited = true) : ty.Populated := by
  induction ty using Ty.induction with
  | bool => exact .bool
  | int t => exact .int
  | ptr t => exact .ptr pointees.here
  | tuple fields size ih =>
      rw [inhabited_tuple_iff] at h
      exact .tuple fun f hf => ih f hf (pointees.field hf) (h f hf)
  | array elem count ih =>
      rw [inhabited_array_iff] at h
      refine .array fun some => ih pointees.elem ?_
      exact h.resolve_left some
  | union u _ => exact .union
  | enum e ih _ =>
      obtain ⟨v, mem, h⟩ := inhabited_enum_iff.1 h
      exact .enum mem (ih v mem (pointees.payload mem) h)

/-! ## Values -/

/-- A type with a well-formed value is populated, whatever its layout. -/
theorem populated_of_wellFormed (wf : ty.wellFormed target v = .ok true) : ty.Populated := by
  induction ty using Ty.induction generalizing v with
  | bool => exact .bool
  | int t => exact .int
  | ptr t =>
      obtain ⟨p, -, -, valid⟩ := wellFormed_ptr_iff.1 wf
      refine .ptr fun q pointee => ?_
      rw [PtrTy.validAddr, pointee] at valid
      by_contra never
      simp [Pointee.validAddr, never] at valid
  | tuple fields size ih =>
      obtain ⟨vs, -, all⟩ := wellFormed_tuple_iff.1 wf
      refine .tuple fun f hf => ?_
      obtain ⟨w, -, wf⟩ := exists_of_forall₂ all.flip hf
      exact ih f hf wf
  | array elem count ih =>
      obtain ⟨vs, -, number, all⟩ := wellFormed_array_iff.1 wf
      refine .array fun some => ?_
      obtain ⟨w, hw⟩ := List.exists_mem_of_length_pos (show 0 < vs.length by omega)
      exact ih (all w hw)
  | union u _ => exact .union
  | enum e ih _ =>
      obtain ⟨n, var, payload, -, hvar, wf⟩ := wellFormed_enum_iff.1 wf
      have mem := List.mem_of_getElem? hvar
      exact .enum mem (ih var mem wf)

/-- A pointer to the first address that is aligned. -/
theorem exists_wellFormed_ptr {t : PtrTy} (addressable : (Ty.ptr t).Addressable target)
    (pointee : (Ty.ptr t).PointeeInhabited) : ∃ v, (Ty.ptr t).wellFormed target v = .ok true := by
  obtain ⟨limit, hlimit, aligned⟩ := addressable
  cases safe : t.safePointee with
  | none =>
      have first : 0 < limit := by
        rw [(Target.addrLimit_eq_ok_iff.1 hlimit).2]
        exact target.limit_pos
      refine ⟨.ptr ⟨0, none⟩, wellFormed_ptr_iff.2 ⟨_, rfl, ?_, ?_⟩⟩
      · exact Target.addrInBounds_of_addrLimit hlimit (Int.le_refl 0) first
      · rw [PtrTy.validAddr, safe]
  | some p =>
      obtain ⟨positive, below⟩ := aligned p safe
      refine ⟨.ptr ⟨p.align, none⟩, wellFormed_ptr_iff.2 ⟨_, rfl, ?_, ?_⟩⟩
      · exact Target.addrInBounds_of_addrLimit hlimit (Int.le_of_lt positive) below
      · have inhabited := pointee p safe
        have nonzero : p.align ≠ 0 := by omega
        rw [PtrTy.validAddr, safe]
        simp [Pointee.validAddr, inhabited, nonzero, isAligned_of_ne_zero]

/-- A populated type has a well-formed value, if sizes and counts are what they have to be and its
pointers have addresses. -/
theorem Populated.exists_wellFormed (h : ty.Populated) (ints : ty.Every IntSized)
    (arrays : ty.Every Counted) (unions : ty.Every ChunksSized)
    (pointers : ty.Every (Addressable target)) : ∃ v, ty.wellFormed target v = .ok true := by
  induction h with
  | bool => exact ⟨.bool false, rfl⟩
  | @int t =>
      have low := t.low_le_zero
      have high := t.zero_le_high
      exact ⟨.int 0, wellFormed_int_iff.2 ⟨0, rfl, (IntTy.canRepresent_iff ints.here).2 ⟨low, high⟩⟩⟩
  | ptr pointee => exact exists_wellFormed_ptr pointers.here pointee
  | @tuple fields size _ ih =>
      have : Nonempty Value := ⟨.unit⟩
      choose! value wf using fun f hf =>
        ih f hf (ints.field hf) (arrays.field hf) (unions.field hf) (pointers.field hf)
      refine ⟨.tuple (fields.map value), wellFormed_tuple_iff.2 ⟨_, rfl, ?_⟩⟩
      rw [List.forall₂_map_right_iff, List.forall₂_same]
      exact wf
  | @array elem count _ ih =>
      have counted : 0 ≤ count := arrays.here
      by_cases empty : count = 0
      · exact ⟨.tuple [], wellFormed_array_iff.2 ⟨[], rfl, empty.symm, List.forall_mem_nil _⟩⟩
      · obtain ⟨v, wf⟩ := ih empty ints.elem arrays.elem unions.elem pointers.elem
        refine ⟨.tuple (List.replicate count.toNat v), wellFormed_array_iff.2 ⟨_, rfl, ?_, ?_⟩⟩
        · rw [List.length_replicate]
          omega
        · intro w hw
          rwa [List.eq_of_mem_replicate hw]
  | @union u =>
      have sized : ∀ c ∈ u.chunks, 0 ≤ c.size := unions.here
      refine ⟨.union (u.chunks.map fun c => AbsByte.blank c.size), ?_⟩
      refine wellFormed_union_iff.2 ⟨_, rfl, ?_⟩
      rw [List.forall₂_map_right_iff, List.forall₂_same]
      exact fun c hc => AbsByte.length_blank_of_nonneg (sized c hc)
  | @enum e var mem _ ih =>
      obtain ⟨v, wf⟩ := ih (ints.payload mem) (arrays.payload mem) (unions.payload mem)
        (pointers.payload mem)
      obtain ⟨n, hn⟩ := List.mem_iff_getElem?.1 mem
      exact ⟨.variant n v, wellFormed_enum_iff.2 ⟨n, var, v, rfl, hn, wf⟩⟩

/-! ## Bytes -/

/-- At a sound layout some bytes stand for a value if the type has a well-formed one. -/
theorem exists_decode_iff (sound : ty.Every (Sound target)) (ints : ty.Every IntSized)
    (arrays : ty.Every Counted) (unions : ty.Every ChunksSized) :
    (∃ data v, ty.decode target data = .ok (some v)) ↔ ∃ v, ty.wellFormed target v = .ok true := by
  have chunks := unions.and (sound.imp fun _ s => s.chunks_inside)
  constructor
  · rintro ⟨data, v, decoded⟩
    exact ⟨v, wellFormed_of_decode ints arrays chunks decoded⟩
  · rintro ⟨v, wf⟩
    obtain ⟨data, made⟩ := exists_bytes (sound.imp fun _ s => s.tags_fit) wf
    have retrievable := sound.imp fun _ s => s.legible.retrievable
    have readable : ty.Readable target data := .inl (sound.imp fun _ s => s.sized)
    obtain ⟨w, decoded, -⟩ := recovers_of_fillsPadding retrievable wf made (.refl ty data) readable
    exact ⟨data, w, decoded⟩

/-- At a sound layout the populated types are those that have values, and those that some bytes stand
for a value of. They say that they are inhabited, and so does what safe pointers to them remember. A
type that says so is populated if all safe pointers in it are to what is inhabited. -/
theorem populated_iff (sound : ty.Every (Sound target)) (ints : ty.Every IntSized)
    (arrays : ty.Every Counted) (unions : ty.Every ChunksSized)
    (pointers : ty.Every (Addressable target)) :
    (ty.Populated ↔ ∃ v, ty.wellFormed target v = .ok true) ∧
    (ty.Populated ↔ ∃ data v, ty.decode target data = .ok (some v)) ∧
    (ty.Populated → (ty.pointee target).inhabited = true) ∧
    (ty.Every PointeeInhabited → (ty.pointee target).inhabited = true → ty.Populated) := by
  have values : ty.Populated ↔ ∃ v, ty.wellFormed target v = .ok true := by
    constructor
    · intro populated
      exact populated.exists_wellFormed ints arrays unions pointers
    · rintro ⟨v, wf⟩
      exact populated_of_wellFormed wf
  refine ⟨values, ?_, Populated.inhabited, populated_of_inhabited⟩
  rw [values, exists_decode_iff sound ints arrays unions]

/-- Two references in a row have a value, and bytes that stand for one. -/
theorem populated_twoReferences :
    let two : Ty := .array (.ptr (.ref false ⟨1, 1, true, true⟩)) 2
    two.Populated ∧ (∃ v, two.wellFormed .standard v = .ok true) ∧
      ∃ data v, two.decode .standard data = .ok (some v) := by
  intro two
  have limit := Target.addrLimit_eq (t := .standard) (by decide)
  have every {P : Ty → Prop} (array : P two) (ref : P (.ptr (.ref false ⟨1, 1, true, true⟩))) :
      two.Every P :=
    .intro array (List.forall_mem_singleton.2 (.intro ref (List.forall_mem_nil _)))
  have pointee : two.Every PointeeInhabited := by
    refine every trivial ?_
    rintro _ ⟨⟩
    rfl
  have addressable : two.Every (Addressable .standard) := by
    refine every trivial ⟨_, limit, ?_⟩
    rintro _ ⟨⟩
    decide
  obtain ⟨values, bytes, -, populated⟩ := populated_iff (every sound_array sound_ptr)
    (every trivial trivial) (every (show (0 : Int) ≤ 2 by decide) trivial) (every trivial trivial)
    addressable
  have here := populated pointee rfl
  exact ⟨here, values.1 here, bytes.1 here⟩

/-- A reference to what has no value says that it is inhabited, and a reference to it remembers that
it is, but it has no value either, and no bytes stand for one. -/
theorem inhabited_referenceToNever :
    let never : Ty := .enum ⟨[], .invalid, .int ⟨true, 8⟩, 0⟩
    let reference : Ty := .ptr (.ref false (never.pointee .standard))
    (reference.Every (Sound .standard) ∧ reference.Every IntSized ∧ reference.Every Counted ∧
      reference.Every ChunksSized ∧ reference.Every (Addressable .standard)) ∧
    reference.inhabited = true ∧ (reference.pointee .standard).inhabited = true ∧
    (∀ v, reference.wellFormed .standard v ≠ .ok true) ∧
    ∀ data v, reference.decode .standard data ≠ .ok (some v) := by
  intro never reference
  have every {P : Ty → Prop} (here : P reference) : reference.Every P :=
    .intro here (List.forall_mem_nil _)
  have sound := every (P := Sound .standard) sound_ptr
  have ints := every (P := IntSized) trivial
  have arrays := every (P := Counted) trivial
  have unions := every (P := ChunksSized) trivial
  have nothing (v : Value) : reference.wellFormed .standard v ≠ .ok true := by
    intro wf
    have populated : (Ty.ptr (.ref false (never.pointee .standard))).Populated :=
      populated_of_wellFormed wf
    cases populated with
    | ptr pointee => exact Bool.false_ne_true (pointee _ rfl)
  refine ⟨⟨sound, ints, arrays, unions, every ?_⟩, rfl, rfl, nothing, ?_⟩
  · refine ⟨_, Target.addrLimit_eq (t := .standard) (by decide), ?_⟩
    rintro _ ⟨⟩
    decide
  · intro data v decoded
    obtain ⟨w, wf⟩ := (exists_decode_iff sound ints arrays unions).1 ⟨data, v, decoded⟩
    exact nothing w wf

end Ty

end AbstractMachine
