/-
# AbstractMachine.Proofs.Representation.Monotone — encoding and decoding keep the order

More defined values have more defined bytes (`encode_mono`), and more defined bytes stand for more
defined values (`decode_mono`). Nothing is asked of the layout for either: components may share
bytes or stick out, since both encodings write the same ranges in the same order and both decodings
read the same ranges.

That bytes stand for a value at all may come about by becoming more defined, and does not go away
again. Apart from that, decoding is monotone at every type (`exists_decode_of_leAll`). Layout comes in
only where decoding fails: at an alignment of zero, and at a decision tree that ends with a variant
that the enum does not have (`exists_decode`).
-/
import AbstractMachine.Proofs.Discriminant
import AbstractMachine.Proofs.Representation.Encoding
import AbstractMachine.Proofs.Representation.Nullable

namespace AbstractMachine

open Slice AbsByte

variable {target : Target}

/-! ## The order on values, former by former -/

namespace Value

variable {w : Value}

theorem leElems_iff_forall₂ {vs ws : List Value} :
    leElems vs ws = true ↔ List.Forall₂ (fun v w => le v w = true) vs ws := by
  induction vs generalizing ws with
  | nil => cases ws <;> simp [leElems]
  | cons v vs ih => cases ws <;> simp [leElems, ih]

theorem chunksLe_iff_forall₂ {cs ds : List (List AbsByte)} :
    chunksLe cs ds = true ↔ List.Forall₂ (fun c d => leAll c d = true) cs ds := by
  induction cs generalizing ds with
  | nil => cases ds <;> simp [chunksLe]
  | cons c cs ih => cases ds <;> simp [chunksLe, ih]

theorem bool_le_iff {b : Bool} : (Value.bool b).le w = true ↔ w = .bool b := by
  cases w <;> simp [le, @eq_comm _ b]

theorem int_le_iff {n : Int} : (Value.int n).le w = true ↔ w = .int n := by
  cases w <;> simp [le, @eq_comm _ n]

theorem ptr_le_iff {p : Pointer} : (Value.ptr p).le w = true ↔
    ∃ q, w = .ptr q ∧ p.addr = q.addr ∧ provenanceLe p.provenance q.provenance = true := by
  cases w <;> simp [le]

theorem tuple_le_iff {vs : List Value} : (Value.tuple vs).le w = true ↔
    ∃ ws, w = .tuple ws ∧ List.Forall₂ (fun v w => le v w = true) vs ws := by
  cases w <;> simp [le, leElems_iff_forall₂]

theorem union_le_iff {cs : List (List AbsByte)} : (Value.union cs).le w = true ↔
    ∃ ds, w = .union ds ∧ List.Forall₂ (fun c d => leAll c d = true) cs ds := by
  cases w <;> simp [le, chunksLe_iff_forall₂]

theorem variant_le_iff {d : Int} {v : Value} : (Value.variant d v).le w = true ↔
    ∃ x, w = .variant d x ∧ v.le x = true := by
  cases w with
  | variant e x =>
      simp only [le, Bool.and_eq_true, beq_iff_eq, variant.injEq]
      constructor
      · rintro ⟨rfl, below⟩
        exact ⟨x, ⟨rfl, rfl⟩, below⟩
      · rintro ⟨_, ⟨rfl, rfl⟩, below⟩
        exact ⟨rfl, below⟩
  | _ => simp [le]

end Value

/-! ## Encoding -/

/-- The writes of a tag make the same pieces each time. -/
theorem TagPieces.unique {tagger : List TagWrite} {ps qs : List (Piece AbsByte)}
    (h : TagPieces target tagger ps) (k : TagPieces target tagger qs) : ps = qs := by
  refine List.right_unique_forall₂' ?_ h k
  rintro w ⟨_, _⟩ ⟨_, _⟩ ⟨rfl, ds, hds, rfl⟩ ⟨rfl, es, hes, rfl⟩
  rw [hds] at hes
  rw [Except.ok.inj hes]

/-- Fields make ordered pieces of ordered values. -/
theorem FieldPieces.forall₂_pieceLe {R : Field → Value → Prop} {fields : List Field}
    {vs ws : List Value} {ps qs : List (Piece AbsByte)} (h : FieldPieces target fields vs ps)
    (k : FieldPieces target fields ws qs) (hR : List.Forall₂ R fields vs)
    (kR : List.Forall₂ R fields ws) (le : List.Forall₂ (fun v w => v.le w = true) vs ws)
    (step : ∀ f ∈ fields, ∀ v w bs cs, R f v → R f w → v.le w = true →
      f.ty.bytes target v = .ok bs → f.ty.bytes target w = .ok cs → leAll bs cs = true) :
    List.Forall₂ PieceLe ps qs := by
  induction h generalizing ws qs with
  | nil =>
      cases k
      exact .nil
  | @cons f v bs fields vs ps hv _ ih =>
      obtain _ | ⟨hw, rest⟩ := k
      obtain _ | ⟨hRv, hR⟩ := hR
      obtain _ | ⟨hRw, kR⟩ := kR
      obtain _ | ⟨head, tail⟩ := le
      refine .cons ⟨rfl, step f List.mem_cons_self v _ bs _ hRv hRw head hv hw⟩ ?_
      exact ih rest hR kR tail fun g hg => step g (List.mem_cons_of_mem f hg)

/-- Elements have ordered bytes if their values are ordered. -/
theorem forall₂_leAll_of_forall₂ {elem : Ty} {vs ws : List Value} {bss css : List (List AbsByte)}
    (h : List.Forall₂ (fun v bs => elem.bytes target v = .ok bs) vs bss)
    (k : List.Forall₂ (fun w cs => elem.bytes target w = .ok cs) ws css)
    (le : List.Forall₂ (fun v w => v.le w = true) vs ws)
    (step : ∀ v ∈ vs, ∀ w ∈ ws, ∀ bs cs, v.le w = true →
      elem.bytes target v = .ok bs → elem.bytes target w = .ok cs → leAll bs cs = true) :
    List.Forall₂ (fun bs cs => leAll bs cs = true) bss css := by
  induction le generalizing bss css with
  | nil =>
      cases h
      cases k
      exact .nil
  | @cons v w vs ws head _ ih =>
      obtain _ | ⟨hv, h⟩ := h
      obtain _ | ⟨hw, k⟩ := k
      refine .cons (step v List.mem_cons_self w List.mem_cons_self _ _ head hv hw) ?_
      exact ih h k fun x hx y hy => step x (List.mem_cons_of_mem v hx) y (List.mem_cons_of_mem w hy)

theorem forall₂_pieceLe_chunkPieces (cs : List Chunk) {bss css : List (List AbsByte)}
    (le : List.Forall₂ (fun bs cs => leAll bs cs = true) bss css) :
    List.Forall₂ PieceLe (chunkPieces cs bss) (chunkPieces cs css) := by
  induction le generalizing cs with
  | nil =>
      rw [chunkPieces, List.zipWith_nil_right]
      exact .nil
  | cons head _ ih =>
      cases cs with
      | nil => exact .nil
      | cons c cs => exact .cons ⟨rfl, head⟩ (ih cs)

namespace Ty

variable {v w : Value}

/-- The bytes of ordered values are ordered. -/
theorem leAll_bytes {ty : Ty} {bs cs : List AbsByte} (hv : ty.wellFormed target v = .ok true)
    (hw : ty.wellFormed target w = .ok true) (le : v.le w = true)
    (hbs : ty.bytes target v = .ok bs) (hcs : ty.bytes target w = .ok cs) :
    leAll bs cs = true := by
  induction ty using Ty.induction generalizing v w bs cs with
  | bool =>
      obtain ⟨b, rfl⟩ := wellFormed_bool_iff.1 hv
      obtain rfl := Value.bool_le_iff.1 le
      obtain rfl := Except.ok.inj (hbs.symm.trans hcs)
      exact leAll_refl bs
  | int t =>
      obtain ⟨n, rfl, _⟩ := wellFormed_int_iff.1 hv
      obtain rfl := Value.int_le_iff.1 le
      obtain rfl := Except.ok.inj (hbs.symm.trans hcs)
      exact leAll_refl bs
  | ptr t =>
      obtain ⟨p, rfl, _⟩ := wellFormed_ptr_iff.1 hv
      obtain ⟨q, rfl, addr, provenance⟩ := Value.ptr_le_iff.1 le
      obtain ⟨ds, hds, rfl⟩ := bytes_ptr_iff.1 hbs
      obtain ⟨es, hes, rfl⟩ := bytes_ptr_iff.1 hcs
      rw [← addr, hds] at hes
      rw [← Except.ok.inj hes]
      exact leAll_ofData ds provenance
  | tuple fields size ih =>
      obtain ⟨vs, rfl, allv⟩ := wellFormed_tuple_iff.1 hv
      obtain ⟨_, rfl, elems⟩ := Value.tuple_le_iff.1 le
      obtain ⟨ws, ⟨⟩, allw⟩ := wellFormed_tuple_iff.1 hw
      obtain ⟨ps, hps, rfl⟩ := (bytes_tuple_iff allv.length_eq).1 hbs
      obtain ⟨qs, hqs, rfl⟩ := (bytes_tuple_iff allw.length_eq).1 hcs
      refine leAll_overlayAll (hps.forall₂_pieceLe hqs allv allw elems ?_) (leAll_refl _)
      intro f hf v w bs cs hv hw le hbs hcs
      exact ih f hf hv hw le hbs hcs
  | array elem count ih =>
      obtain ⟨vs, rfl, _, allv⟩ := wellFormed_array_iff.1 hv
      obtain ⟨_, rfl, elems⟩ := Value.tuple_le_iff.1 le
      obtain ⟨ws, ⟨⟩, _, allw⟩ := wellFormed_array_iff.1 hw
      obtain ⟨bss, hbss, rfl⟩ := bytes_array_iff.1 hbs
      obtain ⟨css, hcss, rfl⟩ := bytes_array_iff.1 hcs
      refine leAll_flatten (forall₂_leAll_of_forall₂ hbss hcss elems ?_)
      intro v hv w hw bs cs le hbs hcs
      exact ih (allv v hv) (allw w hw) le hbs hcs
  | union u _ =>
      obtain ⟨bss, rfl, fitv⟩ := wellFormed_union_iff.1 hv
      obtain ⟨_, rfl, chunks⟩ := Value.union_le_iff.1 le
      obtain ⟨css, ⟨⟩, fitw⟩ := wellFormed_union_iff.1 hw
      rw [bytes_union fitv] at hbs
      rw [bytes_union fitw] at hcs
      rw [← Except.ok.inj hbs, ← Except.ok.inj hcs]
      exact leAll_overlayAll (forall₂_pieceLe_chunkPieces u.chunks chunks) (leAll_refl _)
  | enum e ih _ =>
      obtain ⟨n, var, payload, rfl, hvar, hv⟩ := wellFormed_enum_iff.1 hv
      obtain ⟨payload', rfl, below⟩ := Value.variant_le_iff.1 le
      obtain ⟨m, var', _, same, hvar', hw⟩ := wellFormed_enum_iff.1 hw
      obtain ⟨number, rfl⟩ := Value.variant.inj same
      obtain rfl : n = m := by omega
      obtain rfl := Option.some.inj (hvar.symm.trans hvar')
      obtain ⟨xs, ps, hxs, hps, rfl⟩ := (bytes_enum_iff hvar).1 hbs
      obtain ⟨ys, qs, hys, hqs, rfl⟩ := (bytes_enum_iff hvar).1 hcs
      -- The tags do not depend on the values.
      obtain rfl := hps.unique hqs
      have payloads := ih var (List.mem_of_getElem? hvar) hv hw below hxs hys
      exact leAll_overlayAll (List.forall₂_same.2 fun p _ => ⟨rfl, leAll_refl _⟩) payloads

/-- Encoding is monotone, and gives ordered values the same number of bytes. -/
theorem encode_mono {ty : Ty} (fit : ty.Every TagsFit) (hv : ty.wellFormed target v = .ok true)
    (hw : ty.wellFormed target w = .ok true) (le : v.le w = true) :
    ∃ bs cs, ty.encode target v = .ok bs ∧ ty.encode target w = .ok cs ∧
      leAll bs cs = true ∧ bs.length = cs.length := by
  obtain ⟨bs, hbs⟩ := exists_bytes fit hv
  obtain ⟨cs, hcs⟩ := exists_bytes fit hw
  have ordered := leAll_bytes hv hw le hbs hcs
  exact ⟨bs, cs, encode_eq_ok_iff.2 ⟨hv, hbs⟩, encode_eq_ok_iff.2 ⟨hw, hcs⟩, ordered,
    length_eq_of_leAll ordered⟩

/-- A reference with its provenance has more defined bytes than without. -/
theorem encode_mono_optionRef :
    ∃ bs cs, (optionRef .standard).encode .standard (.nonnull ⟨0x1000, none⟩) = .ok bs ∧
      (optionRef .standard).encode .standard (.nonnull ⟨0x1000, some ⟨3⟩⟩) = .ok cs ∧
      leAll bs cs = true ∧ bs.length = cs.length := by
  have fit : (optionRef .standard).Every TagsFit :=
    every_nullable (tagsFit_nullable (by decide)) trivial trivial trivial
  exact encode_mono fit rfl rfl rfl

end Ty

/-! ## Decoding -/

/-- Where each part has another value, related to the one that it has, the parts have other values. -/
theorem exists_forall₂ {α : Type} {R S : α → Value → Prop} {T : Value → Value → Prop} {xs : List α}
    {vs : List Value} (h : List.Forall₂ R xs vs)
    (step : ∀ x ∈ xs, ∀ v, R x v → ∃ w, S x w ∧ T v w) :
    ∃ ws, List.Forall₂ S xs ws ∧ List.Forall₂ T vs ws := by
  induction h with
  | nil => exact ⟨[], .nil, .nil⟩
  | @cons x v xs vs head _ ih =>
      obtain ⟨w, other, related⟩ := step x List.mem_cons_self v head
      obtain ⟨ws, others, all⟩ := ih fun y hy => step y (List.mem_cons_of_mem x hy)
      exact ⟨w :: ws, .cons other others, .cons related all⟩

namespace Decoded

theorem exists_andThen {α β : Type} {x : Decoded α} {f : α → Decoded β} (h : ∃ a, x = .ok a)
    (k : ∀ a, ∃ b, f a = .ok b) : ∃ b, x.andThen f = .ok b := by
  obtain ⟨o, rfl⟩ := h
  cases o with
  | none => exact ⟨none, rfl⟩
  | some a => exact k a

theorem exists_map {α β : Type} {x : Decoded α} (f : α → β) (h : ∃ a, x = .ok a) :
    ∃ b, x.map f = .ok b :=
  exists_andThen h fun _ => ⟨_, rfl⟩

theorem exists_ite {α : Type} {p : Prop} [Decidable p] {x : Decoded α} (h : ∃ a, x = .ok a) :
    ∃ a, (if p then .ok none else x) = .ok a := by
  split
  · exact ⟨none, rfl⟩
  · exact h

theorem exists_each {α β : Type} {f : α → Decoded β} {xs : List α}
    (h : ∀ x ∈ xs, ∃ b, f x = .ok b) : ∃ b, each f xs = .ok b := by
  induction xs with
  | nil => exact ⟨some [], rfl⟩
  | cons x xs ih =>
      have rest := ih fun y hy => h y (List.mem_cons_of_mem x hy)
      exact exists_andThen (h x List.mem_cons_self) fun _ => exists_map _ rest

end Decoded

theorem exists_decodeFields {fields : List Field}
    (h : ∀ f ∈ fields, ∀ data, ∃ o, f.ty.decode target data = .ok o) (data : List AbsByte) :
    ∃ o, decodeFields target fields data = .ok o := by
  induction fields with
  | nil => exact ⟨some [], rfl⟩
  | cons f fields ih =>
      obtain ⟨offset, ty⟩ := f
      have rest := ih fun g hg => h g (List.mem_cons_of_mem _ hg)
      rw [decodeFields]
      exact Decoded.exists_andThen (h _ List.mem_cons_self _) fun _ => Decoded.exists_map _ rest

namespace Ty

variable {xs ys : List AbsByte}

/-- More defined bytes stand for a more defined value. -/
theorem exists_decode_of_leAll {ty : Ty} {v : Value} (le : leAll xs ys = true)
    (h : ty.decode target xs = .ok (some v)) :
    ∃ w, ty.decode target ys = .ok (some w) ∧ v.le w = true := by
  have same := length_eq_of_leAll le
  induction ty using Ty.induction generalizing v xs ys with
  | bool =>
      obtain ⟨b, hb, rfl⟩ := decode_bool_iff.1 h
      exact ⟨.bool b, decode_bool_iff.2 ⟨b, decodeBool_of_leAll le hb, rfl⟩, Value.le_refl _⟩
  | int t =>
      obtain ⟨n, hn, rfl⟩ := decode_int_iff.1 h
      exact ⟨.int n, decode_int_iff.2 ⟨n, IntTy.decode_of_leAll le hn, rfl⟩, Value.le_refl _⟩
  | ptr t =>
      obtain ⟨size, p, hp, rfl⟩ := decode_ptr_iff.1 h
      obtain ⟨q, hq, below⟩ := PtrTy.decode_of_leAll le hp
      exact ⟨.ptr q, decode_ptr_iff.2 ⟨same ▸ size, q, hq, rfl⟩, Value.ptr_le_iff.2 ⟨q, rfl, below⟩⟩
  | tuple fields size ih =>
      obtain ⟨size, vs, rfl, all⟩ := decode_tuple_iff.1 h
      obtain ⟨ws, all', below⟩ := exists_forall₂ all fun f hf v hv =>
        ih f hf (leAll_read f.offset (f.offset + f.ty.byteSize target) le) hv
          (length_eq_of_leAll (leAll_read _ _ le))
      exact ⟨.tuple ws, decode_tuple_iff.2 ⟨same ▸ size, ws, rfl, all'⟩,
        Value.tuple_le_iff.2 ⟨ws, rfl, below⟩⟩
  | array elem count ih =>
      obtain ⟨size, vs, rfl, all⟩ := decode_array_iff.1 h
      rw [elementRanges, List.forall₂_map_left_iff] at all
      -- The elements are compared by their numbers, which both lists are cut by.
      obtain ⟨ws, all', below⟩ := exists_forall₂ all fun k _ v hv =>
        ih (leAll_read _ _ le) hv (length_eq_of_leAll (leAll_read _ _ le))
      have elems : List.Forall₂ (fun bs v => elem.decode target bs = .ok (some v))
          (elementRanges (elem.byteSize target) count ys) ws := List.forall₂_map_left_iff.2 all'
      exact ⟨.tuple ws, decode_array_iff.2 ⟨same ▸ size, ws, rfl, elems⟩,
        Value.tuple_le_iff.2 ⟨ws, rfl, below⟩⟩
  | union u _ =>
      obtain ⟨size, rfl⟩ := decode_union_iff.1 h
      refine ⟨_, decode_union_iff.2 ⟨same ▸ size, rfl⟩, Value.union_le_iff.2 ⟨_, rfl, ?_⟩⟩
      rw [List.forall₂_map_left_iff, List.forall₂_map_right_iff, List.forall₂_same]
      intro c _
      exact leAll_read c.start (c.start + c.size) le
  | enum e ih _ =>
      obtain ⟨size, n, var, payload, found, hvar, hpayload, rfl⟩ := decode_enum_iff.1 h
      obtain ⟨payload', h', below⟩ := ih var (List.mem_of_getElem? hvar) le hpayload same
      -- Both walks take the same path: the integers that the first one read are in both lists.
      have again := Discriminator.decode_of_leAll le found
      exact ⟨.variant n payload', decode_enum_iff.2 ⟨same ▸ size, n, var, _, again, hvar, h', rfl⟩,
        Value.variant_le_iff.2 ⟨payload', rfl, below⟩⟩

/-- Decoding does not fail, if nothing is aligned to less than one and the decision trees end with
variants that there are. -/
theorem exists_decode (target : Target) {ty : Ty} (aligned : ty.Every PointeeAligned)
    (named : ty.Every VariantsNamed) (data : List AbsByte) : ∃ o, ty.decode target data = .ok o := by
  induction ty using Ty.induction generalizing data with
  | bool =>
      rw [Ty.decode]
      exact Decoded.exists_ite ⟨_, rfl⟩
  | int t =>
      rw [Ty.decode]
      exact Decoded.exists_ite ⟨_, rfl⟩
  | ptr t =>
      rw [Ty.decode]
      exact Decoded.exists_ite (Decoded.exists_map _ (PtrTy.exists_decode aligned.here))
  | tuple fields size ih =>
      have each := exists_decodeFields fun f hf => ih f hf (aligned.field hf) (named.field hf)
      rw [Ty.decode]
      exact Decoded.exists_ite (Decoded.exists_map _ (each data))
  | array elem count ih =>
      rw [Ty.decode]
      refine Decoded.exists_ite (Decoded.exists_map _ (Decoded.exists_each fun bs _ => ?_))
      exact ih aligned.elem named.elem bs
  | union u _ =>
      rw [Ty.decode]
      exact Decoded.exists_ite ⟨_, rfl⟩
  | enum e ih _ =>
      obtain ⟨variants, discriminator, discriminantTy, size⟩ := e
      rw [Ty.decode]
      refine Decoded.exists_ite ?_
      -- A walk ends with a leaf, and a leaf names a variant.
      cases found : discriminator.decode target data with
      | none => exact ⟨none, rfl⟩
      | some d =>
          obtain ⟨low, high⟩ := named.here d (Discriminator.leaf_of_decode found)
          obtain ⟨n, rfl⟩ := Int.eq_ofNat_of_zero_le low
          have bound : n < variants.length := by
            simp only at high
            omega
          have mem := List.getElem_mem bound
          simp only [decodeVariant_eq (List.getElem?_eq_getElem bound)]
          exact Decoded.exists_map _ (ih _ mem (aligned.payload mem) (named.payload mem) data)

/-- Decoding is monotone, where no value at all is below every value. -/
theorem decode_mono {ty : Ty} (aligned : ty.Every PointeeAligned) (named : ty.Every VariantsNamed)
    (le : leAll xs ys = true) :
    ∃ o o', ty.decode target xs = .ok o ∧ ty.decode target ys = .ok o' ∧
      Value.optionLe o o' = true := by
  obtain ⟨o, ho⟩ := exists_decode target aligned named xs
  obtain ⟨o', ho'⟩ := exists_decode target aligned named ys
  refine ⟨o, o', ho, ho', ?_⟩
  cases o with
  | none => rfl
  | some v =>
      obtain ⟨w, hw, below⟩ := exists_decode_of_leAll le ho
      obtain rfl := Except.ok.inj (ho'.symm.trans hw)
      exact below

/-- Bytes that disagree on a provenance stand for a reference without one, and for a reference with
one as soon as they agree. -/
theorem decode_mono_optionRef :
    ∃ o o', (optionRef ⟨2, .big⟩).decode ⟨2, .big⟩ [.init 16 none, .init 0 (some ⟨3⟩)] = .ok o ∧
      (optionRef ⟨2, .big⟩).decode ⟨2, .big⟩ [.init 16 (some ⟨3⟩), .init 0 (some ⟨3⟩)] = .ok o' ∧
      Value.optionLe o o' = true := by
  have aligned : (optionRef ⟨2, .big⟩).Every PointeeAligned :=
    every_nullable trivial trivial trivial fun p hp => by
      obtain rfl := Option.some.inj hp
      decide
  have named : (optionRef ⟨2, .big⟩).Every VariantsNamed :=
    every_nullable variantsNamed_nullable trivial trivial trivial
  exact decode_mono aligned named rfl

end Ty

end AbstractMachine
