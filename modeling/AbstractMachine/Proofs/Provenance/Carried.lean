/-
# AbstractMachine.Proofs.Provenance.Carried — the names that bytes and values carry

A value carries the names of the pointers in it, and those of the bytes in its unions. Between bytes
and values names only move: decoding gives a value no name that the bytes do not carry
(`Ty.carry_of_decode`), encoding gives bytes none that the value does not (`Ty.carries_of_encode`),
and so do transmuting, taking up one field of a union, and retagging. An overlay has the names of
the buffer and of what is laid over it, and a slice no names of its own.

Nothing is assumed of layouts. Pieces may hide each other or be cut off at an end of the buffer; that
can lose names and nothing else.
-/
import AbstractMachine.Machine.Operator
import AbstractMachine.Machine.Eval
import AbstractMachine.Proofs.Representation.Encoding
import AbstractMachine.Proofs.Faults

namespace AbstractMachine

open Slice

variable {id : AllocId}

/-! ## Bytes -/

/-- Some of the bytes carries a name. -/
def Carry (bs : List AbsByte) (id : AllocId) : Prop :=
  ∃ b ∈ bs, b.provenance? = some id

theorem not_carry_nil : ¬Carry [] id := by
  rintro ⟨b, hb, -⟩
  cases hb

theorem not_carry_blank (n : Int) : ¬Carry (AbsByte.blank n) id := by
  rintro ⟨b, hb, named⟩
  rw [List.eq_of_mem_replicate hb] at named
  cases named

theorem carry_append_iff {xs ys : List AbsByte} :
    Carry (xs ++ ys) id ↔ Carry xs id ∨ Carry ys id := by
  simp only [Carry, List.mem_append]
  grind

theorem Carry.mono {xs ys : List AbsByte} (h : Carry xs id) (sub : xs ⊆ ys) : Carry ys id := by
  obtain ⟨b, hb, named⟩ := h
  exact ⟨b, sub hb, named⟩

theorem Carry.of_read {xs : List AbsByte} {start stop : Int} (h : Carry (read xs start stop) id) :
    Carry xs id :=
  h.mono fun _ mem => List.mem_of_mem_take (List.mem_of_mem_drop mem)

theorem Carry.of_write {xs new : List AbsByte} {start stop : Int}
    (h : Carry (write xs start stop new) id) : Carry xs id ∨ Carry new id := by
  rw [Slice.write, carry_append_iff, carry_append_iff] at h
  rcases h with (h | h) | h
  · exact .inl (h.mono (List.take_subset _ _))
  · exact .inr h
  · exact .inl (h.mono (List.drop_subset _ _))

theorem Carry.of_overlay {xs new : List AbsByte} {start : Int}
    (h : Carry (overlay xs start new) id) : Carry xs id ∨ Carry new id :=
  h.of_write

theorem Carry.of_overlayAll {ps : List (Piece AbsByte)} {buffer : List AbsByte}
    (h : Carry (overlayAll ps buffer) id) : Carry buffer id ∨ ∃ p ∈ ps, Carry p.content id := by
  induction ps generalizing buffer with
  | nil => exact .inl h
  | cons p ps ih =>
      rw [overlayAll_cons] at h
      rcases ih h with h | ⟨q, hq, h⟩
      · exact h.of_overlay.imp_right fun h => ⟨p, List.mem_cons_self, h⟩
      · exact .inr ⟨q, List.mem_cons_of_mem p hq, h⟩

theorem Carry.of_ofData {ds : List UInt8} {p : Option AllocId}
    (h : Carry (AbsByte.ofData ds p) id) : p = some id := by
  obtain ⟨b, hb, named⟩ := h
  obtain ⟨d, -, rfl⟩ := List.mem_map.1 hb
  exact named

theorem carry_of_commonProvenance {data : List AbsByte} (h : commonProvenance data = some id) :
    Carry data id := by
  obtain ⟨nonempty, all⟩ := commonProvenance_eq_some_iff.1 h
  obtain ⟨b, hb⟩ := List.exists_mem_of_ne_nil data nonempty
  exact ⟨b, hb, all b hb⟩

/-! ## Values -/

/-- A pointer in a value, or a byte of a union in it, carries a name. -/
inductive Value.Carries (id : AllocId) : Value → Prop
  | ptr {p : Pointer} : p.provenance = some id → Carries id (.ptr p)
  | tuple {vs : List Value} {v : Value} : v ∈ vs → Carries id v → Carries id (.tuple vs)
  | union {bss : List (List AbsByte)} {bs : List AbsByte} : bs ∈ bss → Carry bs id →
      Carries id (.union bss)
  | variant {d : Int} {v : Value} : Carries id v → Carries id (.variant d v)

namespace Value

@[simp] theorem carries_ptr_iff {p : Pointer} : (ptr p).Carries id ↔ p.provenance = some id :=
  ⟨fun h => by cases h; assumption, .ptr⟩

@[simp] theorem carries_tuple_iff {vs : List Value} :
    (tuple vs).Carries id ↔ ∃ v ∈ vs, v.Carries id :=
  ⟨fun h => by cases h with | tuple hv h => exact ⟨_, hv, h⟩, fun ⟨_, hv, h⟩ => .tuple hv h⟩

@[simp] theorem carries_union_iff {bss : List (List AbsByte)} :
    (union bss).Carries id ↔ ∃ bs ∈ bss, Carry bs id :=
  ⟨fun h => by cases h with | union hbs h => exact ⟨_, hbs, h⟩, fun ⟨_, hbs, h⟩ => .union hbs h⟩

@[simp] theorem carries_variant_iff {d : Int} {v : Value} :
    (variant d v).Carries id ↔ v.Carries id :=
  ⟨fun h => by cases h; assumption, .variant⟩

@[simp] theorem not_carries_int (n : Int) : ¬(int n).Carries id := nofun

@[simp] theorem not_carries_bool (b : Bool) : ¬(bool b).Carries id := nofun

@[simp] theorem not_carries_unit : ¬unit.Carries id := by
  simp [unit]

end Value

/-! ## Decoding and encoding -/

namespace Ty

variable {target : Target} {v : Value} {data : List AbsByte}

/-- A value has its names from the bytes that it was read from. -/
theorem carry_of_decode {ty : Ty} (h : ty.decode target data = .ok (some v))
    (carries : v.Carries id) : Carry data id := by
  induction ty using Ty.induction generalizing v data with
  | bool =>
      obtain ⟨b, -, rfl⟩ := decode_bool_iff.1 h
      simp at carries
  | int t =>
      obtain ⟨n, -, rfl⟩ := decode_int_iff.1 h
      simp at carries
  | ptr t =>
      obtain ⟨-, p, hp, rfl⟩ := decode_ptr_iff.1 h
      obtain ⟨ds, -, -, rfl⟩ := PtrTy.decode_eq_some_iff.1 hp
      exact carry_of_commonProvenance (Value.carries_ptr_iff.1 carries)
  | tuple fields size ih =>
      obtain ⟨-, vs, rfl, all⟩ := decode_tuple_iff.1 h
      obtain ⟨v, hv, carries⟩ := Value.carries_tuple_iff.1 carries
      obtain ⟨f, hf, decoded⟩ := exists_of_forall₂ all hv
      exact (ih f hf decoded carries).of_read
  | array elem count ih =>
      obtain ⟨-, vs, rfl, all⟩ := decode_array_iff.1 h
      obtain ⟨v, hv, carries⟩ := Value.carries_tuple_iff.1 carries
      obtain ⟨bs, hbs, decoded⟩ := exists_of_forall₂ all hv
      obtain ⟨k, -, rfl⟩ := List.mem_map.1 hbs
      exact (ih decoded carries).of_read
  | union u _ =>
      obtain ⟨-, rfl⟩ := decode_union_iff.1 h
      obtain ⟨bs, hbs, carries⟩ := Value.carries_union_iff.1 carries
      obtain ⟨c, -, rfl⟩ := List.mem_map.1 hbs
      exact carries.of_read
  | enum e ih _ =>
      obtain ⟨-, n, var, payload, -, hvar, decoded, rfl⟩ := decode_enum_iff.1 h
      exact ih var (List.mem_of_getElem? hvar) decoded (Value.carries_variant_iff.1 carries)

/-- The writes of a tag carry no names. -/
theorem not_carry_of_tagPieces {tagger : List TagWrite} {ps : List (Piece AbsByte)}
    (pieces : TagPieces target tagger ps) {p : Piece AbsByte} (hp : p ∈ ps) :
    ¬Carry p.content id := by
  obtain ⟨w, -, -, ds, -, content⟩ := exists_of_forall₂ pieces hp
  intro h
  rw [content] at h
  cases h.of_ofData

theorem content_mem_of_chunkPieces {cs : List Chunk} {bss : List (List AbsByte)}
    {p : Piece AbsByte} (hp : p ∈ chunkPieces cs bss) : p.content ∈ bss := by
  induction bss generalizing cs with
  | nil => simp [chunkPieces] at hp
  | cons bs bss ih =>
      cases cs with
      | nil => simp [chunkPieces] at hp
      | cons c cs =>
          rcases List.mem_cons.1 hp with rfl | hp
          · exact List.mem_cons_self
          · exact List.mem_cons_of_mem bs (ih hp)

/-- Bytes have their names from the value that they were made of. -/
theorem carries_of_bytes {ty : Ty} (wf : ty.wellFormed target v = .ok true)
    (h : ty.bytes target v = .ok data) (carry : Carry data id) : v.Carries id := by
  induction ty using Ty.induction generalizing v data with
  | bool =>
      obtain ⟨b, rfl⟩ := wellFormed_bool_iff.1 wf
      obtain rfl := Except.ok.inj h
      obtain ⟨x, hx, named⟩ := carry
      rw [List.mem_singleton.1 hx] at named
      cases named
  | int t =>
      obtain ⟨n, rfl, -⟩ := wellFormed_int_iff.1 wf
      obtain ⟨ds, -, rfl⟩ := bytes_int_iff.1 h
      cases carry.of_ofData
  | ptr t =>
      obtain ⟨p, rfl, -⟩ := wellFormed_ptr_iff.1 wf
      obtain ⟨ds, -, rfl⟩ := bytes_ptr_iff.1 h
      exact .ptr carry.of_ofData
  | tuple fields size ih =>
      obtain ⟨vs, rfl, all⟩ := wellFormed_tuple_iff.1 wf
      obtain ⟨ps, pieces, rfl⟩ := (bytes_tuple_iff all.length_eq).1 h
      rcases carry.of_overlayAll with carry | ⟨p, hp, carry⟩
      · -- What no field covers is blank.
        exact absurd carry (not_carry_blank size)
      · have each := (forall₂_mem all.flip).flip
        obtain ⟨f, hf, v, ⟨hv, wf⟩, -, encoded⟩ := pieces.exists_field each hp
        exact .tuple hv (ih f hf wf encoded carry)
  | array elem count ih =>
      obtain ⟨vs, rfl, -, all⟩ := wellFormed_array_iff.1 wf
      obtain ⟨bss, encoded, rfl⟩ := bytes_array_iff.1 h
      obtain ⟨x, hx, named⟩ := carry
      obtain ⟨bs, hbs, hx⟩ := List.mem_flatten.1 hx
      obtain ⟨v, hv, encoded⟩ := exists_of_forall₂ encoded hbs
      exact .tuple hv (ih (all v hv) encoded ⟨x, hx, named⟩)
  | union u _ =>
      obtain ⟨bss, rfl, fit⟩ := wellFormed_union_iff.1 wf
      rw [bytes_union fit] at h
      obtain rfl := Except.ok.inj h
      rcases carry.of_overlayAll with carry | ⟨p, hp, carry⟩
      · exact absurd carry (not_carry_blank u.size)
      · exact .union (content_mem_of_chunkPieces hp) carry
  | enum e ih _ =>
      obtain ⟨n, var, payload, rfl, hvar, wf⟩ := wellFormed_enum_iff.1 wf
      obtain ⟨bs, ps, encoded, pieces, rfl⟩ := (bytes_enum_iff hvar).1 h
      rcases carry.of_overlayAll with carry | ⟨p, hp, carry⟩
      · exact .variant (ih var (List.mem_of_getElem? hvar) wf encoded carry)
      · exact absurd carry (not_carry_of_tagPieces pieces hp)

theorem carries_of_encode {ty : Ty} (h : ty.encode target v = .ok data) (carry : Carry data id) :
    v.Carries id := by
  obtain ⟨wf, encoded⟩ := encode_eq_ok_iff.1 h
  exact carries_of_bytes wf encoded carry

end Ty

/-! ## Values made of values -/

/-- A transmuted value has its names from the one that it was. -/
theorem Value.carries_of_transmute {target : Target} {v w : Value} {source ty : Ty}
    (h : v.transmute target source ty = .ok w) (carries : w.Carries id) : v.Carries id := by
  simp only [Value.transmute, bind_eq_ok_iff, require_eq_ok_iff] at h
  obtain ⟨_, -, data, encoded, o, decoded, h⟩ := h
  cases o with
  | none => cases h
  | some w' =>
      obtain rfl := Except.ok.inj h
      exact Ty.carries_of_encode encoded (Ty.carry_of_decode decoded carries)

/-- A union with one field written has its names from the value of the field. -/
theorem UnionTy.carries_of_ofField {target : Target} {u : UnionTy} {i : Int} {v w : Value}
    (h : u.ofField target i v = .ok w) (carries : w.Carries id) : v.Carries id := by
  simp only [UnionTy.ofField, bind_eq_ok_iff] at h
  obtain ⟨f, -, data, encoded, h⟩ := h
  obtain rfl := Except.ok.inj h
  obtain ⟨bs, hbs, carry⟩ := Value.carries_union_iff.1 carries
  obtain ⟨c, -, rfl⟩ := List.mem_map.1 hbs
  rcases carry.of_read.of_overlay with carry | carry
  · exact absurd carry (not_carry_blank u.size)
  · exact Ty.carries_of_encode encoded carry

namespace Memory

variable {m : Memory}

theorem retag_eq_ok {p q : Pointer} {ty : PtrTy} (h : m.retag p ty = .ok q) : q = p := by
  unfold retag at h
  split at h
  · exact (Except.ok.inj h).symm
  · obtain ⟨_, -, h⟩ := bind_eq_ok_iff.1 h
    exact (Except.ok.inj h).symm

theorem failsIn_retagAll {E : Fault → Prop} {f : Value → Except Fault Value} {vs : List Value}
    (h : ∀ v ∈ vs, FailsIn E (f v)) : FailsIn E (retagAll f vs) := by
  induction vs with
  | nil => exact .ok []
  | cons v vs ih =>
      exact .bind (h v List.mem_cons_self) fun _ _ =>
        .bind (ih fun w hw => h w (List.mem_cons_of_mem v hw)) fun _ _ => .pure _

section Fails

variable {E : Fault → Prop} {W : AllocId → Prop}

theorem failsIn_retagFields {fields : List Field} {vs : List Value}
    (h : ∀ f ∈ fields, ∀ v ∈ vs, FailsIn E (m.retagValue f.ty v)) :
    FailsIn E (m.retagFields fields vs) := by
  induction fields generalizing vs with
  | nil => exact .ok []
  | cons f rest ih =>
      obtain ⟨offset, ty⟩ := f
      cases vs with
      | nil => exact .ok []
      | cons v vs =>
          refine .bind (h ⟨offset, ty⟩ List.mem_cons_self v List.mem_cons_self) fun _ _ => ?_
          have tail := ih fun f hf w hw => h f (List.mem_cons_of_mem _ hf) w (List.mem_cons_of_mem v hw)
          exact .bind tail fun _ _ => .pure _

variable [Fault.Blaming E]

theorem failsIn_retagVariant {variants : List Variant} {v : Value}
    (h : ∀ var ∈ variants, FailsIn E (m.retagValue var.ty v)) (d index : Int) :
    FailsIn E (m.retagVariant d variants index v) := by
  induction variants generalizing index with
  | nil => exact .error (Fault.Blaming.defect _ nofun)
  | cons var rest ih =>
      obtain ⟨ty, tagger⟩ := var
      rw [retagVariant]
      exact .ite (h _ List.mem_cons_self) (ih (fun u hu => h u (List.mem_cons_of_mem _ hu)) _)

/-- A value is retagged pointer by pointer: at the pointer types in its type, and with the names
that it carries. -/
theorem failsIn_retagValue_of_ptrs {P : Ty → Prop}
    (each : ∀ t p, P (.ptr t) → (∀ id, p.provenance = some id → W id) → FailsIn E (m.retag p t))
    {ty : Ty} (ht : ty.Every P) {v : Value} (hv : ∀ id, v.Carries id → W id) :
    FailsIn E (m.retagValue ty v) := by
  induction ty using Ty.induction generalizing v with
  | bool | int | union => cases v <;> exact .ok _
  | ptr t =>
      cases v with
      | ptr p => exact .bind (each t p ht.here fun id named => hv id (.ptr named)) fun _ _ => .pure _
      | _ => exact .ok _
  | tuple fields size ih =>
      cases v with
      | tuple vs =>
          have parts := failsIn_retagFields fun f hf w hw =>
            ih f hf (ht.field hf) fun id carries => hv id (.tuple hw carries)
          exact .bind parts fun _ _ => .pure _
      | _ => exact .ok _
  | array elem count ih =>
      cases v with
      | tuple vs =>
          have parts := failsIn_retagAll fun w hw =>
            ih ht.elem fun id carries => hv id (.tuple hw carries)
          exact .bind parts fun _ _ => .pure _
      | _ => exact .ok _
  | enum e ih _ =>
      obtain ⟨variants, discriminator, discriminantTy, size⟩ := e
      cases v with
      | variant d payload =>
          have part := failsIn_retagVariant (fun var hvar =>
            ih var hvar (ht.payload hvar) fun id carries => hv id (.variant carries)) d d
          exact .bind part fun _ _ => .pure _
      | _ => exact .ok _

/-- Retagging looks at the allocations that the value names, and at no others. -/
theorem failsIn_retagValue (ty : Ty) {v : Value} (h : ∀ id, v.Carries id → W id) :
    FailsIn (m.Refuses W) (m.retagValue ty v) :=
  failsIn_retagValue_of_ptrs (fun _ _ _ named => failsIn_retag named)
    (Ty.Every.of_forall (fun _ => trivial) ty : ty.Every fun _ => True) h

end Fails

theorem carries_of_retagAll {f : Value → Except Fault Value} {vs ws : List Value}
    (h : retagAll f vs = .ok ws)
    (step : ∀ v w, f v = .ok w → w.Carries id → v.Carries id) {w : Value} (hw : w ∈ ws)
    (carries : w.Carries id) : ∃ v ∈ vs, v.Carries id := by
  induction vs generalizing ws with
  | nil =>
      obtain rfl := Except.ok.inj h
      cases hw
  | cons v vs ih =>
      simp only [retagAll, bind_eq_ok_iff] at h
      obtain ⟨v', hv, ws', hvs, h⟩ := h
      obtain rfl := Except.ok.inj h
      rcases List.mem_cons.1 hw with rfl | hw
      · exact ⟨v, List.mem_cons_self, step v w hv carries⟩
      · obtain ⟨u, hu, carries⟩ := ih hvs hw
        exact ⟨u, List.mem_cons_of_mem v hu, carries⟩

mutual

/-- A retagged value has its names from the one that it was. -/
theorem carries_of_retagValue : ∀ (ty : Ty) {v w : Value}, m.retagValue ty v = .ok w →
    w.Carries id → v.Carries id
  | .bool, v, w, h, carries => by
      obtain rfl : v = w := by cases v <;> exact Except.ok.inj h
      exact carries
  | .int _, v, w, h, carries => by
      obtain rfl : v = w := by cases v <;> exact Except.ok.inj h
      exact carries
  | .union _, v, w, h, carries => by
      obtain rfl : v = w := by cases v <;> exact Except.ok.inj h
      exact carries
  | .ptr t, v, w, h, carries => by
      cases v with
      | ptr p =>
          simp only [retagValue, bind_eq_ok_iff] at h
          obtain ⟨q, hq, h⟩ := h
          obtain rfl := retag_eq_ok hq
          obtain rfl := Except.ok.inj h
          exact carries
      | _ =>
          obtain rfl := Except.ok.inj h
          exact carries
  | .tuple fields _, v, w, h, carries => by
      cases v with
      | tuple vs =>
          simp only [retagValue, bind_eq_ok_iff] at h
          obtain ⟨ws, hws, h⟩ := h
          obtain rfl := Except.ok.inj h
          obtain ⟨w, hw, carries⟩ := Value.carries_tuple_iff.1 carries
          obtain ⟨v, hv, carries⟩ := carries_of_retagFields fields hws hw carries
          exact .tuple hv carries
      | _ =>
          obtain rfl := Except.ok.inj h
          exact carries
  | .array elem _, v, w, h, carries => by
      cases v with
      | tuple vs =>
          simp only [retagValue, bind_eq_ok_iff] at h
          obtain ⟨ws, hws, h⟩ := h
          obtain rfl := Except.ok.inj h
          obtain ⟨w, hw, carries⟩ := Value.carries_tuple_iff.1 carries
          obtain ⟨v, hv, carries⟩ := carries_of_retagAll hws
            (fun _ _ => carries_of_retagValue elem) hw carries
          exact .tuple hv carries
      | _ =>
          obtain rfl := Except.ok.inj h
          exact carries
  | .enum ⟨variants, _, _, _⟩, v, w, h, carries => by
      cases v with
      | variant d payload =>
          simp only [retagValue, bind_eq_ok_iff] at h
          obtain ⟨payload', hp, h⟩ := h
          obtain rfl := Except.ok.inj h
          exact .variant (carries_of_retagVariant d variants d hp
            (Value.carries_variant_iff.1 carries))
      | _ =>
          obtain rfl := Except.ok.inj h
          exact carries

theorem carries_of_retagFields : ∀ (fields : List Field) {vs ws : List Value},
    m.retagFields fields vs = .ok ws → ∀ {w : Value}, w ∈ ws → w.Carries id →
      ∃ v ∈ vs, v.Carries id
  | [], vs, ws, h, w, hw, _ => by
      obtain rfl := Except.ok.inj h
      cases hw
  | ⟨_, _⟩ :: _, [], ws, h, w, hw, _ => by
      obtain rfl := Except.ok.inj h
      cases hw
  | ⟨_, ty⟩ :: fields, v :: vs, ws, h, w, hw, carries => by
      simp only [retagFields, bind_eq_ok_iff] at h
      obtain ⟨v', hv, ws', hvs, h⟩ := h
      obtain rfl := Except.ok.inj h
      rcases List.mem_cons.1 hw with rfl | hw
      · exact ⟨v, List.mem_cons_self, carries_of_retagValue ty hv carries⟩
      · obtain ⟨u, hu, carries⟩ := carries_of_retagFields fields hvs hw carries
        exact ⟨u, List.mem_cons_of_mem v hu, carries⟩

theorem carries_of_retagVariant (d : Int) : ∀ (variants : List Variant) (i : Int) {v w : Value},
    m.retagVariant d variants i v = .ok w → w.Carries id → v.Carries id
  | [], _, _, _, h, _ => by cases h
  | ⟨ty, _⟩ :: variants, i, v, w, h, carries => by
      rw [retagVariant] at h
      split at h
      · exact carries_of_retagValue ty h carries
      · exact carries_of_retagVariant d variants (i - 1) h carries

end

end Memory

end AbstractMachine
