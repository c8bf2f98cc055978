/-
# AbstractMachine.Proofs.Refinement.Values — a more defined value is as good

Where an operation succeeds on a value it succeeds on every value above it, with a result above the
first one. A value above a well-formed one is well-formed, and can be encoded if the first can be;
integers and booleans have nothing above them but themselves; pointers are compared by address, and
the address of a pointer above another one is the same. No layout is assumed of types: the program
that is run decides which types there are.
-/
import AbstractMachine.Machine.Control
import AbstractMachine.Proofs.Action
import AbstractMachine.Proofs.Representation.Order

namespace AbstractMachine

open AbsByte

variable {target : Target} {v w : Value} {ty : Ty}

/-- Fields make pieces of values above others that they make pieces of. -/
theorem FieldPieces.exists_of_le {R : Field → Value → Prop} {fields : List Field}
    {vs ws : List Value} {ps : List (Piece AbsByte)} (h : FieldPieces target fields vs ps)
    (all : List.Forall₂ R fields vs) (le : List.Forall₂ (fun v w => v.le w = true) vs ws)
    (step : ∀ f ∈ fields, ∀ v w bs, R f v → v.le w = true → f.ty.bytes target v = .ok bs →
      ∃ cs, f.ty.bytes target w = .ok cs) : ∃ qs, FieldPieces target fields ws qs := by
  induction h generalizing ws with
  | nil =>
      cases le
      exact ⟨[], .nil⟩
  | @cons f v bs fields vs ps hv _ ih =>
      obtain _ | ⟨here, all⟩ := all
      obtain _ | ⟨below, le⟩ := le
      obtain ⟨cs, hcs⟩ := step f List.mem_cons_self v _ bs here below hv
      obtain ⟨qs, pieces⟩ := ih all le fun g hg => step g (List.mem_cons_of_mem f hg)
      exact ⟨_, .cons hcs pieces⟩

namespace Ty

/-- A value above a well-formed one is well-formed. -/
theorem wellFormed_of_le (h : ty.wellFormed target v = .ok true) (le : v.le w = true) :
    ty.wellFormed target w = .ok true := by
  rw [← Value.fitAlike_of_le target le]
  exact h

/-- A value above one that has bytes has bytes. -/
theorem exists_bytes_of_le {bs : List AbsByte} (wf : ty.wellFormed target v = .ok true)
    (le : v.le w = true) (h : ty.bytes target v = .ok bs) : ∃ cs, ty.bytes target w = .ok cs := by
  induction ty using Ty.induction generalizing v w bs with
  | bool =>
      obtain ⟨b, rfl⟩ := wellFormed_bool_iff.1 wf
      obtain rfl := Value.bool_le_iff.1 le
      exact ⟨bs, h⟩
  | int t =>
      obtain ⟨n, rfl, _⟩ := wellFormed_int_iff.1 wf
      obtain rfl := Value.int_le_iff.1 le
      exact ⟨bs, h⟩
  | ptr t =>
      obtain ⟨p, rfl, _⟩ := wellFormed_ptr_iff.1 wf
      obtain ⟨q, rfl, addr, -⟩ := Value.ptr_le_iff.1 le
      obtain ⟨ds, hds, -⟩ := bytes_ptr_iff.1 h
      exact ⟨_, bytes_ptr_iff.2 ⟨ds, addr ▸ hds, rfl⟩⟩
  | tuple fields size ih =>
      obtain ⟨vs, rfl, all⟩ := wellFormed_tuple_iff.1 wf
      obtain ⟨ws, rfl, elems⟩ := Value.tuple_le_iff.1 le
      obtain ⟨ps, hps, -⟩ := (bytes_tuple_iff all.length_eq).1 h
      obtain ⟨qs, hqs⟩ := hps.exists_of_le all elems fun f hf _ _ _ => ih f hf
      exact ⟨_, (bytes_tuple_iff (all.length_eq.trans elems.length_eq)).2 ⟨qs, hqs, rfl⟩⟩
  | array elem count ih =>
      obtain ⟨vs, rfl, _, all⟩ := wellFormed_array_iff.1 wf
      obtain ⟨ws, rfl, elems⟩ := Value.tuple_le_iff.1 le
      obtain ⟨bss, hbss, -⟩ := bytes_array_iff.1 h
      have each : ∀ w ∈ ws, ∃ cs, elem.bytes target w = .ok cs := by
        intro w hw
        obtain ⟨v, hv, below⟩ := exists_of_forall₂ elems hw
        obtain ⟨bs, -, hbs⟩ := exists_of_forall₂ hbss.flip hv
        exact ih (all v hv) below hbs
      choose! encode hencode using each
      refine ⟨_, bytes_array_iff.2 ⟨ws.map encode, ?_, rfl⟩⟩
      rw [List.forall₂_map_right_iff, List.forall₂_same]
      exact hencode
  | union u _ =>
      obtain ⟨css, rfl, fit⟩ := wellFormed_union_iff.1 (wellFormed_of_le wf le)
      exact ⟨_, bytes_union fit⟩
  | enum e ih _ =>
      obtain ⟨n, var, payload, rfl, hvar, wf⟩ := wellFormed_enum_iff.1 wf
      obtain ⟨payload', rfl, below⟩ := Value.variant_le_iff.1 le
      obtain ⟨xs, ps, hxs, hps, -⟩ := (bytes_enum_iff hvar).1 h
      obtain ⟨ys, hys⟩ := ih var (List.mem_of_getElem? hvar) wf below hxs
      exact ⟨_, (bytes_enum_iff hvar).2 ⟨ys, ps, hys, hps, rfl⟩⟩

/-- A value above one that can be encoded can be encoded, to more defined bytes. -/
theorem encode_improves (le : v.le w = true) :
    Improves (fun bs cs => leAll bs cs = true) (ty.encode target v) (ty.encode target w) := by
  intro bs h
  obtain ⟨wf, hbs⟩ := encode_eq_ok_iff.1 h
  have wf' := wellFormed_of_le wf le
  obtain ⟨cs, hcs⟩ := exists_bytes_of_le wf le hbs
  exact ⟨cs, encode_eq_ok_iff.2 ⟨wf', hcs⟩, leAll_bytes wf wf' le hbs hcs⟩

end Ty

/-! ## Operands and results -/

/-- The left pointer has the address of the right one, and at most its provenance. -/
def Pointer.Le (p q : Pointer) : Prop :=
  p.addr = q.addr ∧ provenanceLe p.provenance q.provenance = true

/-- A value with its type is below another one with the same type. -/
def TypedLe (a b : Value × Ty) : Prop :=
  a.1.le b.1 = true ∧ b.2 = a.2

/-- A pointer to a place is below another one to a place of the same type. -/
def PlaceLe (a b : Pointer × PlaceTy) : Prop :=
  a.1.Le b.1 ∧ b.2 = a.2

/-- The answer of the second computation is the same. -/
abbrev Same {α : Type} (a b : α) : Prop := b = a

/-- A name that a pointer carries, every pointer above it carries. -/
theorem Pointer.Le.named {p q : Pointer} (h : p.Le q) {id : AllocId}
    (named : p.provenance = some id) : q.provenance = some id := by
  rcases provenanceLe_iff.1 h.2 with none | same
  · rw [none] at named
    cases named
  · rw [← same, named]

theorem Value.ptr_le_ptr {p q : Pointer} (h : p.Le q) : (Value.ptr p).le (.ptr q) = true :=
  Value.ptr_le_iff.2 ⟨q, rfl, h⟩

theorem intOperand_improves (le : v.le w = true) :
    Improves Same (intOperand v ty) (intOperand w ty) := by
  cases v with
  | int n =>
      obtain rfl := Value.int_le_iff.1 le
      exact .refl fun _ _ => rfl
  | _ => exact .error

theorem boolOperand_improves (le : v.le w = true) :
    Improves Same (boolOperand v) (boolOperand w) := by
  cases v with
  | bool b =>
      obtain rfl := Value.bool_le_iff.1 le
      exact .refl fun _ _ => rfl
  | _ => exact .error

/-- Pointers are compared by address, and provenance plays no part. -/
theorem comparable_improves (le : v.le w = true) :
    Improves Same (comparable v) (comparable w) := by
  cases v with
  | int n =>
      obtain rfl := Value.int_le_iff.1 le
      exact .refl fun _ _ => rfl
  | bool b =>
      obtain rfl := Value.bool_le_iff.1 le
      exact .refl fun _ _ => rfl
  | ptr p =>
      obtain ⟨q, rfl, addr, -⟩ := Value.ptr_le_iff.1 le
      exact .pure addr.symm
  | _ => exact .error

theorem relOp_improves (op : RelOp) {v' w' : Value} (left : v.le w = true)
    (right : v'.le w' = true) : Improves Same (op.eval v v') (op.eval w w') := by
  refine (comparable_improves left).bind fun l _ _ same => ?_
  refine (comparable_improves right).bind fun r _ _ same' => ?_
  rw [same, same']
  exact .refl fun _ _ => rfl

theorem transmute_improves {source : Ty} (le : v.le w = true) :
    Improves (fun a b => a.le b = true) (v.transmute target source ty)
      (w.transmute target source ty) := by
  refine .bindSame fun _ _ => (Ty.encode_improves le).bind fun data data' _ below => ?_
  intro a ha
  obtain ⟨o, decoded, ha⟩ := bind_eq_ok_iff.1 ha
  cases o with
  | none => cases ha
  | some x =>
      obtain rfl := Except.ok.inj ha
      obtain ⟨b, hb, le⟩ := Ty.exists_decode_of_leAll below decoded
      exact ⟨b, bind_eq_ok_iff.2 ⟨some b, hb, rfl⟩, le⟩

theorem ofField_improves {u : UnionTy} {i : Int} (le : v.le w = true) :
    Improves (fun a b => a.le b = true) (u.ofField target i v) (u.ofField target i w) := by
  refine .bindSame fun f _ => (Ty.encode_improves le).bind fun data data' _ below => .pure ?_
  have bytes := leAll_overlay f.offset (leAll_refl (blank u.size)) below
  refine Value.union_le_iff.2 ⟨_, rfl, ?_⟩
  rw [List.forall₂_map_left_iff, List.forall₂_map_right_iff, List.forall₂_same]
  exact fun c _ => leAll_read c.start (c.start + c.size) bytes

theorem elementOffset_improves (le : v.le w = true) :
    Improves Same (ty.elementOffset target v) (ty.elementOffset target w) := by
  cases v with
  | int n =>
      obtain rfl := Value.int_le_iff.1 le
      exact .refl fun _ _ => rfl
  | _ => cases ty <;> exact .error

theorem wrappingOffset_improves {p q : Pointer} (le : p.Le q) {offset : Int} :
    Improves Pointer.Le (p.wrappingOffset offset target) (q.wrappingOffset offset target) := by
  refine .bind (V := Same) ?_ fun addr _ _ same => .pure ⟨same.symm, le.2⟩
  rw [le.1]
  exact .refl fun _ _ => rfl

/-! ## Arguments of intrinsics -/

variable {a b : Value × Ty}

theorem intArgument_improves (le : TypedLe a b) :
    Improves Same (intArgument a) (intArgument b) := by
  obtain ⟨v, _⟩ := a
  obtain ⟨w, ty⟩ := b
  obtain ⟨le, rfl⟩ := le
  cases v with
  | int n =>
      obtain rfl := Value.int_le_iff.1 le
      exact .refl fun _ _ => rfl
  | _ => exact .error

theorem ptrArgument_improves (le : TypedLe a b) :
    Improves Pointer.Le (ptrArgument a) (ptrArgument b) := by
  obtain ⟨v, _⟩ := a
  obtain ⟨w, ty⟩ := b
  obtain ⟨le, rfl⟩ := le
  cases v with
  | ptr p =>
      obtain ⟨q, rfl, below⟩ := Value.ptr_le_iff.1 le
      cases ty with
      | ptr t => exact .pure below
      | _ => exact .error
  | _ => exact .error

theorem printed_improves (le : TypedLe a b) : Improves Same (printed a) (printed b) := by
  obtain ⟨v, _⟩ := a
  obtain ⟨w, ty⟩ := b
  obtain ⟨le, rfl⟩ := le
  cases v with
  | int n =>
      obtain rfl := Value.int_le_iff.1 le
      exact .refl fun _ _ => rfl
  | bool b =>
      obtain rfl := Value.bool_le_iff.1 le
      exact .refl fun _ _ => rfl
  | _ => exact .error

end AbstractMachine
