/-
# AbstractMachine.Proofs.Provenance.Stripped — numbers have no provenance

Pointers keep the provenance of their bytes, and unions keep whole bytes. All other values are made
of numbers: integers, booleans, and tags that a decision tree reads. Such a value is read off the
bits of bytes and nothing else (`Ty.decode_map_forget`), and the bytes that are written for it have
no provenance (`Ty.not_carry_of_encode`). So provenance does not survive a copy at the type of a
number.

Nothing is assumed of layouts. A decision tree may read any bytes of its enum, those of payloads and
of padding included.
-/
import AbstractMachine.Proofs.Discriminant
import AbstractMachine.Proofs.Memory.Contents
import AbstractMachine.Proofs.Provenance.Carried
import AbstractMachine.Proofs.Machine.Foundation

namespace AbstractMachine

variable {target : Target}

/-! ## Bytes without their provenance -/

theorem Slice.read_map {α β : Type} (f : α → β) (xs : List α) (start stop : Int) :
    read (xs.map f) start stop = (read xs start stop).map f := by
  simp only [read, List.length_map, List.map_drop, List.map_take]

namespace AbsByte

theorem allData?_map_forget (bs : List AbsByte) : allData? (bs.map forget) = allData? bs := by
  induction bs with
  | nil => rfl
  | cons b bs ih =>
      cases b with
      | uninit => rfl
      | init d p => simp only [List.map_cons, forget, allData?, ih]

end AbsByte

open AbsByte

theorem decodeBool_map_forget (bs : List AbsByte) : decodeBool (bs.map forget) = decodeBool bs := by
  match bs with
  | [] | [.uninit] => rfl
  | [.init d p] =>
      simp only [List.map_cons, forget, List.map_nil, decodeBool]
      split <;> simp_all
  | b :: c :: bs => simp [decodeBool]

theorem IntTy.decode_map_forget (t : IntTy) (bs : List AbsByte) :
    t.decode target (bs.map forget) = t.decode target bs := by
  rw [IntTy.decode, IntTy.decode, List.length_map, allData?_map_forget]

/-- A decision tree reads integers, so it is walked along one path with provenance and without. -/
theorem Discriminator.decode_map_forget (tree : Discriminator) (bs : List AbsByte) :
    tree.decode target (bs.map forget) = tree.decode target bs := by
  induction tree using Discriminator.induction with
  | known d => rfl
  | invalid => rfl
  | branch offset ty children fallback inChild inFallback =>
      rw [decode_branch, decode_branch, Slice.read_map, IntTy.decode_map_forget]
      congr 1
      funext n
      rcases childFor_eq children fallback n with ⟨b, hb, same⟩ | same
      · rw [same, inChild b hb]
      · rw [same, inFallback]

/-! ## Types of numbers -/

/-- Neither a pointer nor a union. -/
def Ty.Numeric : Ty → Prop
  | .ptr _ | .union _ => False
  | _ => True

theorem elementRanges_map (f : AbsByte → AbsByte) (size count : Int) (bs : List AbsByte) :
    elementRanges size count (bs.map f) = (elementRanges size count bs).map (List.map f) := by
  simp only [elementRanges, Slice.read_map, List.map_map, Function.comp_def]

theorem Decoded.each_map {α β γ : Type} (f : α → β) (read : β → Decoded γ) (xs : List α) :
    Decoded.each read (xs.map f) = Decoded.each (fun x => read (f x)) xs := by
  induction xs with
  | nil => rfl
  | cons x xs ih => rw [List.map_cons, Decoded.each, Decoded.each, ih]

theorem decodeFields_map_forget {fields : List Field}
    (each : ∀ f ∈ fields, ∀ bs, f.ty.decode target (bs.map forget) = f.ty.decode target bs)
    (bs : List AbsByte) :
    decodeFields target fields (bs.map forget) = decodeFields target fields bs := by
  induction fields with
  | nil => rfl
  | cons f fields ih =>
      obtain ⟨offset, ty⟩ := f
      obtain ⟨here, rest⟩ := List.forall_mem_cons.1 each
      rw [decodeFields, decodeFields, Slice.read_map, here, ih rest]

theorem decodeVariant_map_forget {variants : List Variant}
    (each : ∀ v ∈ variants, ∀ bs, v.ty.decode target (bs.map forget) = v.ty.decode target bs)
    (d index : Int) (bs : List AbsByte) :
    decodeVariant target d variants index (bs.map forget) =
      decodeVariant target d variants index bs := by
  induction variants generalizing index with
  | nil => rfl
  | cons v variants ih =>
      obtain ⟨ty, tagger⟩ := v
      obtain ⟨here, rest⟩ := List.forall_mem_cons.1 each
      rw [decodeVariant, decodeVariant, here, ih rest]

namespace Ty

variable {ty : Ty} {v : Value} {data : List AbsByte} {id : AllocId}

/-- Without its provenance, a byte list stands for the same value at a type of numbers, or for none if
it stood for none, or reading it fails as before. -/
theorem decode_map_forget (numeric : ty.Every Numeric) (bs : List AbsByte) :
    ty.decode target (bs.map forget) = ty.decode target bs := by
  induction ty using Ty.induction generalizing bs with
  | bool => rw [Ty.decode, Ty.decode, List.length_map, decodeBool_map_forget]
  | int t => rw [Ty.decode, Ty.decode, List.length_map, IntTy.decode_map_forget]
  -- The two formers whose values keep provenance are excluded.
  | ptr t => exact numeric.here.elim
  | tuple fields size ih =>
      have each := decodeFields_map_forget fun f hf => ih f hf (numeric.field hf)
      rw [Ty.decode, Ty.decode, List.length_map, each]
  | array elem count ih =>
      have each : (fun bs : List AbsByte => elem.decode target (bs.map forget)) = elem.decode target :=
        funext (ih numeric.elem)
      rw [Ty.decode, Ty.decode, List.length_map, elementRanges_map, Decoded.each_map, each]
  | union u _ => exact numeric.here.elim
  | enum e ih _ =>
      obtain ⟨variants, discriminator, discriminantTy, size⟩ := e
      -- The tree comes to the same leaf, and the payload is read off the same bytes again.
      have each := decodeVariant_map_forget fun v hv => ih v hv (numeric.payload hv)
      simp only [Ty.decode, List.length_map, discriminator.decode_map_forget, each]

/-- There is nothing in a value of such a type that could carry a name. -/
theorem not_carries_of_wellFormed (numeric : ty.Every Numeric)
    (wf : ty.wellFormed target v = .ok true) : ¬v.Carries id := by
  induction ty using Ty.induction generalizing v with
  | bool =>
      obtain ⟨b, rfl⟩ := wellFormed_bool_iff.1 wf
      exact Value.not_carries_bool b
  | int t =>
      obtain ⟨n, rfl, -⟩ := wellFormed_int_iff.1 wf
      exact Value.not_carries_int n
  | ptr t => exact numeric.here.elim
  | tuple fields size ih =>
      obtain ⟨vs, rfl, all⟩ := wellFormed_tuple_iff.1 wf
      rw [Value.carries_tuple_iff]
      rintro ⟨v, hv, carries⟩
      obtain ⟨f, hf, wf⟩ := exists_of_forall₂ all hv
      exact ih f hf (numeric.field hf) wf carries
  | array elem count ih =>
      obtain ⟨vs, rfl, -, all⟩ := wellFormed_array_iff.1 wf
      rw [Value.carries_tuple_iff]
      rintro ⟨v, hv, carries⟩
      exact ih numeric.elem (all v hv) carries
  | union u _ => exact numeric.here.elim
  | enum e ih _ =>
      obtain ⟨n, var, payload, rfl, hvar, wf⟩ := wellFormed_enum_iff.1 wf
      have mem := List.mem_of_getElem? hvar
      rw [Value.carries_variant_iff]
      exact ih var mem (numeric.payload mem) wf

/-- The bytes of a value of such a type carry no names. -/
theorem not_carry_of_encode (numeric : ty.Every Numeric) (h : ty.encode target v = .ok data) :
    ¬Carry data id :=
  fun carry => not_carries_of_wellFormed numeric (encode_eq_ok_iff.1 h).1 (carries_of_encode h carry)

/-- What is read at such a type carries no name, whatever the bytes carry: it is also read from the
bytes without their provenance. -/
theorem not_carries_of_decode (numeric : ty.Every Numeric) (h : ty.decode target data = .ok (some v)) :
    ¬v.Carries id := by
  intro carries
  rw [← decode_map_forget numeric] at h
  obtain ⟨b, hb, named⟩ := carry_of_decode h carries
  obtain ⟨b, -, rfl⟩ := List.mem_map.1 hb
  cases b <;> cases named

end Ty

/-! ## Copies through memory -/

theorem not_carry_iff {bs : List AbsByte} :
    (∀ id, ¬Carry bs id) ↔ ∀ b ∈ bs, b.provenance? = none := by
  simp only [Carry, not_exists, not_and, Option.eq_none_iff_forall_ne_some]
  exact forall_comm.trans (forall_congr' fun _ => forall_comm)

/-- What is loaded at a type of numbers and stored, at whatever type, is found without provenance
where it was stored. -/
theorem Memory.not_carry_of_copy {m m' m'' : Memory} {p q : Pointer} {place place' : PlaceTy}
    {v : Value} (numeric : place.ty.Every Ty.Numeric) (numbered : m'.Numbered)
    (loaded : m.typedLoad p place = .ok v) (stored : m'.typedStore q v place' = .ok m'') :
    ∃ data, place'.ty.encode m'.target v = .ok data ∧
      m''.load q data.length place'.align = .ok data ∧ ∀ id, ¬Carry data id := by
  obtain ⟨_, -, decoded⟩ := typedLoad_eq_ok_iff.1 loaded
  obtain ⟨data, encoded, written⟩ := typedStore_eq_ok_iff.1 stored
  refine ⟨data, encoded, load_of_store numbered written, fun id carry => ?_⟩
  exact Ty.not_carries_of_decode numeric decoded (Ty.carries_of_encode encoded carry)

/-- Integers, booleans and tags, and what is put together of them in whatever layout, do not need
provenance and do not carry it: bytes stand for what they stand for without it; a well-formed value has
bytes if its tags can be written, and has none with provenance; and in every memory that there can be, a
value that was loaded at such a type is found without provenance where it is stored. -/
theorem Ty.provenance_stripped {ty : Ty} (numeric : ty.Every Numeric) :
    (∀ bs, ty.decode target bs = ty.decode target (bs.map forget)) ∧
    (∀ v, ty.wellFormed target v = .ok true →
      (ty.Every TagsFit → ∃ data, ty.encode target v = .ok data) ∧
      ∀ data, ty.encode target v = .ok data → ∀ b ∈ data, b.provenance? = none) ∧
    ∀ (m m' m'' : Memory) (p q : Pointer) (align : Int) (place' : PlaceTy) (v : Value),
      m'.Reached target → m.typedLoad p ⟨ty, align⟩ = .ok v → m'.typedStore q v place' = .ok m'' →
      ∃ data, place'.ty.encode target v = .ok data ∧
        m''.load q data.length place'.align = .ok data ∧ ∀ b ∈ data, b.provenance? = none := by
  refine ⟨fun bs => (decode_map_forget numeric bs).symm, fun v wf => ⟨fun tags => ?_, ?_⟩, ?_⟩
  · obtain ⟨data, made⟩ := exists_bytes tags wf
    exact ⟨data, encode_eq_ok_iff.2 ⟨wf, made⟩⟩
  · exact fun data encoded => not_carry_iff.1 fun _ => not_carry_of_encode numeric encoded
  · intro m m' m'' p q align place' v reached loaded stored
    obtain ⟨data, encoded, found, bare⟩ :=
      Memory.not_carry_of_copy numeric reached.laid.numbered loaded stored
    exact ⟨data, reached.target_eq ▸ encoded, found, not_carry_iff.1 bare⟩

/-- A number behind a tag, or a boolean behind another. -/
def numberOrBool : Ty :=
  .enum ⟨[⟨.tuple [⟨2, .int ⟨false, 2⟩⟩] 4, [⟨0, ⟨false, 2⟩, 0⟩]⟩,
      ⟨.tuple [⟨2, .bool⟩] 4, [⟨0, ⟨false, 2⟩, 1⟩]⟩], tagDiscriminator ⟨false, 2⟩ 2, .int ⟨false, 2⟩, 4⟩

/-- Memory with eight bytes, the first four of which have the name of the allocation on them. -/
def namedNumber : Memory :=
  (Memory.fresh ⟨2, .little⟩ fun _ _ => .ok 16).afterAll [.allocate 8 2 .stack,
    .store ⟨16, some ⟨0⟩⟩ (AbsByte.ofData [0, 0, 24, 0] (some ⟨0⟩)) 2]

theorem every_numberOrBool : numberOrBool.Every fun t => t.Numeric ∧ t.TagsFit := by
  have scalar {t : Ty} (none : t.components = []) (here : t.Numeric ∧ t.TagsFit) :
      t.Every fun t => t.Numeric ∧ t.TagsFit := .intro here (none ▸ List.forall_mem_nil _)
  have behind {t : Ty} (ht : t.Every fun t => t.Numeric ∧ t.TagsFit) :
      (Ty.tuple [⟨2, t⟩] 4).Every fun t => t.Numeric ∧ t.TagsFit :=
    .intro ⟨trivial, trivial⟩ (List.forall_mem_singleton.2 ht)
  refine .intro ⟨trivial, List.forall_mem_cons.2 ⟨?_, List.forall_mem_singleton.2 ?_⟩⟩
    (List.forall_mem_cons.2 ⟨?_, List.forall_mem_singleton.2 ?_⟩)
  · exact List.forall_mem_singleton.2 rfl
  · exact List.forall_mem_singleton.2 rfl
  · exact behind (scalar rfl ⟨trivial, trivial⟩)
  · exact behind (scalar rfl ⟨trivial, trivial⟩)

/-- Copied four bytes on, the number is the same and the name is gone. -/
theorem provenance_stripped_numberOrBool :
    namedNumber.load ⟨16, some ⟨0⟩⟩ 4 2 = .ok (AbsByte.ofData [0, 0, 24, 0] (some ⟨0⟩)) ∧
      numberOrBool.decode ⟨2, .little⟩ (AbsByte.ofData [0, 0, 24, 0] (some ⟨0⟩)) =
        .ok (some (.variant 0 (.tuple [.int 24]))) ∧
      (∃ data, numberOrBool.encode ⟨2, .little⟩ (.variant 0 (.tuple [.int 24])) = .ok data ∧
        ∀ b ∈ data, b.provenance? = none) ∧
      ∃ m data, namedNumber.typedStore ⟨20, some ⟨0⟩⟩ (.variant 0 (.tuple [.int 24]))
          ⟨numberOrBool, 2⟩ = .ok m ∧
        m.load ⟨20, some ⟨0⟩⟩ 4 2 = .ok data ∧ ∀ b ∈ data, b.provenance? = none := by
  have numeric := every_numberOrBool.imp fun _ => And.left
  have tags := every_numberOrBool.imp fun _ => And.right
  obtain ⟨plain, valued, copied⟩ := @Ty.provenance_stripped ⟨2, .little⟩ _ numeric
  obtain ⟨writes, bare⟩ := valued (.variant 0 (.tuple [.int 24])) rfl
  obtain ⟨data, encoded⟩ := writes tags
  have found : namedNumber.typedLoad ⟨16, some ⟨0⟩⟩ ⟨numberOrBool, 2⟩ =
    .ok (.variant 0 (.tuple [.int 24])) := rfl
  obtain ⟨m, stored⟩ : ∃ m, namedNumber.typedStore ⟨20, some ⟨0⟩⟩ (.variant 0 (.tuple [.int 24]))
      ⟨numberOrBool, 2⟩ = .ok m := ⟨_, rfl⟩
  obtain ⟨data', encoded', later, bare'⟩ := copied _ _ _ _ _ _ _ _ (.calls _ _) found stored
  have four : data'.length = 4 := by
    obtain rfl : [.init 0 none, .init 0 none, .init 24 none, .init 0 none] = data' :=
      Except.ok.inj encoded'
    rfl
  refine ⟨rfl, (plain _).trans rfl, ⟨data, encoded, bare data encoded⟩, m, data', stored, ?_, bare'⟩
  rw [four] at later
  exact later

end AbstractMachine
