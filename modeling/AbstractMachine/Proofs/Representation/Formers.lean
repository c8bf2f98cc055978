/-
# AbstractMachine.Proofs.Representation.Formers — what each former makes of values and bytes

Well-formedness, encoding and decoding recurse over lists of fields, chunks and variants, with
buffers handed on and failures cut short. Here each of them is said once and for all, former by
former, as a statement about the parts: a tuple is well-formed if its values are, one for each field;
its bytes are the pieces of its fields laid over blank ones; bytes decode at it if the slice of each
field does. The proofs about representation read these statements and not the definitions.
-/
import Mathlib.Data.List.Forall2
import AbstractMachine.Representation.Decode
import AbstractMachine.Representation.Encode
import AbstractMachine.Proofs.Overlay

namespace AbstractMachine

open Slice

variable {target : Target}

/-! ## Related lists -/

section Related

variable {α β : Type} {R : α → β → Prop} {xs : List α} {ys : List β}

/-- What is in related lists may be used where they are compared. -/
theorem forall₂_mem (h : List.Forall₂ R xs ys) :
    List.Forall₂ (fun x y => x ∈ xs ∧ R x y) xs ys :=
  (List.forall₂_and_left xs ys).2 ⟨fun _ hx => hx, h⟩

/-- What is in the right one of two related lists is related to something in the left one. -/
theorem exists_of_forall₂ (h : List.Forall₂ R xs ys) {y : β} (hy : y ∈ ys) :
    ∃ x ∈ xs, R x y := by
  induction h with
  | nil => simp at hy
  | @cons x z xs zs head _ ih =>
      rcases List.mem_cons.1 hy with rfl | hy
      · exact ⟨x, List.mem_cons_self, head⟩
      · obtain ⟨w, hw, related⟩ := ih hy
        exact ⟨w, List.mem_cons_of_mem x hw, related⟩

/-- Related lists are related position by position. -/
theorem forall₂_iff_getElem? :
    List.Forall₂ R xs ys ↔
      xs.length = ys.length ∧ ∀ (i : Nat) x y, xs[i]? = some x → ys[i]? = some y → R x y := by
  rw [List.forall₂_iff_get]
  refine and_congr_right fun _ => ⟨fun each i x y hx hy => ?_, fun each i hx hy => ?_⟩
  · obtain ⟨boundx, rfl⟩ := List.getElem?_eq_some_iff.1 hx
    obtain ⟨boundy, rfl⟩ := List.getElem?_eq_some_iff.1 hy
    exact each i boundx boundy
  · exact each i _ _ (List.getElem?_eq_getElem hx) (List.getElem?_eq_getElem hy)

end Related

/-! ## Well-formed values -/

section WellFormed

attribute [local simp] Ty.wellFormed fieldsWellFormed variantWellFormed

theorem allOk_eq_true_iff {α : Type} {test : α → Except Fault Bool} {xs : List α} :
    allOk test xs = .ok true ↔ ∀ x ∈ xs, test x = .ok true := by
  induction xs with
  | nil => simp [allOk]
  | cons x xs ih =>
      rw [allOk, List.forall_mem_cons, ← ih]
      split <;> simp_all

theorem chunksFit_eq_true_iff {cs : List Chunk} {bss : List (List AbsByte)} :
    chunksFit cs bss = true ↔
      List.Forall₂ (fun (c : Chunk) bs => (bs.length : Int) = c.size) cs bss := by
  induction cs generalizing bss with
  | nil => cases bss <;> simp [chunksFit]
  | cons c cs ih => cases bss <;> simp [chunksFit, ih]

theorem fieldsWellFormed_eq_true_iff {fields : List Field} {vs : List Value} :
    fieldsWellFormed target fields vs = .ok true ↔
      List.Forall₂ (fun (f : Field) v => f.ty.wellFormed target v = .ok true) fields vs := by
  induction fields generalizing vs with
  | nil => cases vs <;> simp
  | cons f fields ih =>
      cases vs with
      | nil => simp
      | cons v vs =>
          obtain ⟨offset, ty⟩ := f
          rw [fieldsWellFormed, List.forall₂_cons, ← ih]
          split <;> simp_all

theorem variantWellFormed_eq_true_iff {variants : List Variant} {d : Int} {payload : Value} :
    variantWellFormed target variants d payload = .ok true ↔
      ∃ (n : Nat) (v : Variant), d = n ∧ variants[n]? = some v ∧
        v.ty.wellFormed target payload = .ok true := by
  induction variants generalizing d with
  | nil => simp
  | cons v variants ih =>
      obtain ⟨ty, tagger⟩ := v
      rw [variantWellFormed]
      by_cases zero : d = 0
      · rw [if_pos zero]
        constructor
        · exact fun wf => ⟨0, _, zero, rfl, wf⟩
        · rintro ⟨n, w, rfl, hw, wf⟩
          obtain rfl : n = 0 := by omega
          obtain rfl : Variant.mk ty tagger = w := by simpa using hw
          exact wf
      · rw [if_neg zero, ih]
        constructor
        · rintro ⟨n, w, hn, hw, wf⟩
          exact ⟨n + 1, w, by omega, by simpa using hw, wf⟩
        · rintro ⟨n, w, rfl, hw, wf⟩
          obtain ⟨m, rfl⟩ : ∃ m, n = m + 1 := ⟨n - 1, by omega⟩
          exact ⟨m, w, by omega, by simpa using hw, wf⟩

namespace Ty

variable {v : Value}

theorem wellFormed_bool_iff : Ty.bool.wellFormed target v = .ok true ↔ ∃ b, v = .bool b := by
  cases v <;> simp

theorem wellFormed_int_iff {t : IntTy} :
    (Ty.int t).wellFormed target v = .ok true ↔ ∃ n, v = .int n ∧ t.canRepresent n = .ok true := by
  cases v <;> simp

theorem wellFormed_ptr_iff {t : PtrTy} :
    (Ty.ptr t).wellFormed target v = .ok true ↔
      ∃ p, v = .ptr p ∧ target.addrInBounds p.addr = .ok true ∧ t.validAddr p.addr = .ok true := by
  cases v with
  | ptr p =>
      simp only [Ty.wellFormed, bind, Except.bind, pure, Except.pure, Value.ptr.injEq,
        exists_eq_left']
      cases target.addrInBounds p.addr with
      | error e => simp
      | ok b => cases b <;> simp
  | _ => simp

theorem wellFormed_tuple_iff {fields : List Field} {size : Int} :
    (Ty.tuple fields size).wellFormed target v = .ok true ↔
      ∃ vs, v = .tuple vs ∧
        List.Forall₂ (fun (f : Field) v => f.ty.wellFormed target v = .ok true) fields vs := by
  cases v with
  | tuple vs =>
      simp only [Ty.wellFormed, Value.tuple.injEq, exists_eq_left', ← fieldsWellFormed_eq_true_iff]
      constructor
      · intro wf
        split at wf
        · exact wf
        · simp at wf
      · intro wf
        have same := (fieldsWellFormed_eq_true_iff.1 wf).length_eq
        rw [if_pos same.symm]
        exact wf
  | _ => simp

theorem wellFormed_array_iff {elem : Ty} {count : Int} :
    (Ty.array elem count).wellFormed target v = .ok true ↔
      ∃ vs, v = .tuple vs ∧ (vs.length : Int) = count ∧
        ∀ v ∈ vs, elem.wellFormed target v = .ok true := by
  cases v with
  | tuple vs =>
      simp only [Ty.wellFormed, Value.tuple.injEq, exists_eq_left', ← allOk_eq_true_iff]
      split <;> simp_all
  | _ => simp

theorem wellFormed_union_iff {u : UnionTy} :
    (Ty.union u).wellFormed target v = .ok true ↔
      ∃ bss, v = .union bss ∧
        List.Forall₂ (fun (c : Chunk) bs => (bs.length : Int) = c.size) u.chunks bss := by
  cases v <;> simp [chunksFit_eq_true_iff]

theorem wellFormed_enum_iff {e : EnumTy} :
    (Ty.enum e).wellFormed target v = .ok true ↔
      ∃ (n : Nat) (var : Variant) (payload : Value), v = .variant n payload ∧
        e.variants[n]? = some var ∧ var.ty.wellFormed target payload = .ok true := by
  obtain ⟨variants, discriminator, discriminantTy, size⟩ := e
  cases v with
  | variant d payload =>
      rw [Ty.wellFormed, variantWellFormed_eq_true_iff]
      constructor
      · rintro ⟨n, var, rfl, hvar, wf⟩
        exact ⟨n, var, payload, rfl, hvar, wf⟩
      · rintro ⟨n, var, _, ⟨⟩, hvar, wf⟩
        exact ⟨n, var, rfl, hvar, wf⟩
  | _ => simp

end Ty

end WellFormed

/-! ## Encoding -/

section Encoding

attribute [local simp] Ty.bytes fieldBytes variantBytes

/-- The pieces that fields make of values: the bytes of each value, at the offset of its field. -/
inductive FieldPieces (target : Target) : List Field → List Value → List (Piece AbsByte) → Prop
  | nil : FieldPieces target [] [] []
  | cons {f : Field} {v : Value} {bytes : List AbsByte} {fields : List Field} {vs : List Value}
      {ps : List (Piece AbsByte)} : f.ty.bytes target v = .ok bytes →
      FieldPieces target fields vs ps →
      FieldPieces target (f :: fields) (v :: vs) (⟨f.offset, bytes⟩ :: ps)

/-- The pieces that the writes of a tag make. -/
def TagPieces (target : Target) : List TagWrite → List (Piece AbsByte) → Prop :=
  List.Forall₂ fun w p => p.start = w.offset ∧
    ∃ ds, target.endian.encode w.value w.ty.size w.ty.signed = .ok ds ∧
      p.content = AbsByte.ofData ds none

/-- The pieces that chunks make of their bytes. -/
def chunkPieces (cs : List Chunk) (bss : List (List AbsByte)) : List (Piece AbsByte) :=
  List.zipWith (fun c bs => ⟨c.start, bs⟩) cs bss

theorem fieldBytes_eq_ok_iff {fields : List Field} {vs : List Value} {buffer out : List AbsByte}
    (same : fields.length = vs.length) :
    fieldBytes target fields vs buffer = .ok out ↔
      ∃ ps, FieldPieces target fields vs ps ∧ out = overlayAll ps buffer := by
  induction fields generalizing vs buffer with
  | nil =>
      obtain rfl : vs = [] := List.length_eq_zero_iff.1 same.symm
      constructor
      · intro h
        exact ⟨[], .nil, (Except.ok.inj h).symm⟩
      · rintro ⟨ps, ⟨⟩, rfl⟩
        rfl
  | cons f fields ih =>
      cases vs with
      | nil => simp at same
      | cons v vs =>
          obtain ⟨offset, ty⟩ := f
          have rest : fields.length = vs.length := by simpa using same
          simp only [fieldBytes, bind, Except.bind]
          constructor
          · intro h
            cases hv : ty.bytes target v with
            | error e => simp [hv] at h
            | ok bytes =>
                rw [hv] at h
                obtain ⟨ps, pieces, rfl⟩ := (ih rest).1 h
                exact ⟨_, .cons hv pieces, rfl⟩
          · rintro ⟨_, _ | ⟨hv, pieces⟩, rfl⟩
            rw [hv]
            exact (ih rest).2 ⟨_, pieces, rfl⟩

theorem writeTag_eq_ok_iff {tagger : List TagWrite} {buffer out : List AbsByte} :
    writeTag target tagger buffer = .ok out ↔
      ∃ ps, TagPieces target tagger ps ∧ out = overlayAll ps buffer := by
  induction tagger generalizing buffer out with
  | nil =>
      constructor
      · intro h
        exact ⟨[], .nil, (Except.ok.inj h).symm⟩
      · rintro ⟨ps, ⟨⟩, rfl⟩
        rfl
  | cons w tagger ih =>
      simp only [writeTag, TagWrite.apply, bind, Except.bind, pure, Except.pure]
      constructor
      · intro h
        cases hw : target.endian.encode w.value w.ty.size w.ty.signed with
        | error e => simp [hw] at h
        | ok ds =>
            rw [hw] at h
            obtain ⟨ps, pieces, rfl⟩ := ih.1 h
            exact ⟨⟨w.offset, AbsByte.ofData ds none⟩ :: ps, .cons ⟨rfl, ds, hw, rfl⟩ pieces, rfl⟩
      · rintro ⟨_, _ | ⟨⟨start, ds, hw, content⟩, pieces⟩, rfl⟩
        rw [hw, overlayAll_cons, start, content]
        exact ih.2 ⟨_, pieces, rfl⟩

theorem writeChunks_eq {cs : List Chunk} {bss : List (List AbsByte)} {buffer : List AbsByte}
    (fit : List.Forall₂ (fun (c : Chunk) bs => (bs.length : Int) = c.size) cs bss) :
    writeChunks cs bss buffer = overlayAll (chunkPieces cs bss) buffer := by
  induction fit generalizing buffer with
  | nil => rfl
  | @cons c bs cs bss size _ ih =>
      rw [writeChunks, ih, ← size]
      rfl

theorem concatOk_eq_ok_iff {α β : Type} {f : α → Except Fault (List β)} {xs : List α}
    {out : List β} :
    concatOk f xs = .ok out ↔
      ∃ yss, List.Forall₂ (fun x ys => f x = .ok ys) xs yss ∧ out = yss.flatten := by
  induction xs generalizing out with
  | nil =>
      constructor
      · intro h
        exact ⟨[], .nil, (Except.ok.inj h).symm⟩
      · rintro ⟨_, ⟨⟩, rfl⟩
        rfl
  | cons x xs ih =>
      simp only [concatOk, bind, Except.bind, pure, Except.pure]
      constructor
      · intro h
        cases hx : f x with
        | error e => simp [hx] at h
        | ok ys =>
            cases hxs : concatOk f xs with
            | error e => simp [hx, hxs] at h
            | ok rest =>
                obtain ⟨yss, all, rfl⟩ := ih.1 hxs
                simp only [hx, hxs, Except.ok.injEq] at h
                exact ⟨ys :: yss, .cons hx all, h.symm⟩
      · rintro ⟨_, _ | ⟨hx, all⟩, rfl⟩
        rw [hx, ih.2 ⟨_, all, rfl⟩]
        rfl

theorem variantBytes_eq {d : Int} {variants : List Variant} {n : Nat} {v : Variant}
    {payload : Value} (hv : variants[n]? = some v) :
    variantBytes target d variants n payload =
      (v.ty.bytes target payload).bind (writeTag target v.tagger) := by
  induction variants generalizing n with
  | nil => simp at hv
  | cons w variants ih =>
      obtain ⟨ty, tagger⟩ := w
      rw [variantBytes]
      cases n with
      | zero =>
          obtain rfl : Variant.mk ty tagger = v := by simpa using hv
          rfl
      | succ n =>
          rw [if_neg (by omega), show ((n + 1 : Nat) : Int) - 1 = n by omega]
          exact ih (by simpa using hv)

namespace Ty

variable {v : Value} {out : List AbsByte}

theorem encode_eq_ok_iff {ty : Ty} :
    ty.encode target v = .ok out ↔
      ty.wellFormed target v = .ok true ∧ ty.bytes target v = .ok out := by
  simp only [Ty.encode, bind, Except.bind]
  cases ty.wellFormed target v with
  | error e => simp
  | ok wf => cases wf <;> simp

theorem bytes_int_iff {t : IntTy} {n : Int} :
    (Ty.int t).bytes target (.int n) = .ok out ↔
      ∃ ds, target.endian.encode n t.size t.signed = .ok ds ∧ out = AbsByte.ofData ds none := by
  simp only [Ty.bytes, bind, Except.bind, pure, Except.pure]
  cases target.endian.encode n t.size t.signed <;> simp [eq_comm]

theorem bytes_ptr_iff {t : PtrTy} {p : Pointer} :
    (Ty.ptr t).bytes target (.ptr p) = .ok out ↔
      ∃ ds, target.endian.encode p.addr target.ptrSize false = .ok ds ∧
        out = AbsByte.ofData ds p.provenance := by
  simp only [Ty.bytes, bind, Except.bind, pure, Except.pure]
  cases target.endian.encode p.addr target.ptrSize false <;> simp [eq_comm]

theorem bytes_tuple_iff {fields : List Field} {size : Int} {vs : List Value}
    (same : fields.length = vs.length) :
    (Ty.tuple fields size).bytes target (.tuple vs) = .ok out ↔
      ∃ ps, FieldPieces target fields vs ps ∧ out = overlayAll ps (AbsByte.blank size) := by
  rw [Ty.bytes, fieldBytes_eq_ok_iff same]

theorem bytes_array_iff {elem : Ty} {count : Int} {vs : List Value} :
    (Ty.array elem count).bytes target (.tuple vs) = .ok out ↔
      ∃ bss, List.Forall₂ (fun v bs => elem.bytes target v = .ok bs) vs bss ∧ out = bss.flatten := by
  rw [Ty.bytes, concatOk_eq_ok_iff]

theorem bytes_union {u : UnionTy} {bss : List (List AbsByte)}
    (fit : List.Forall₂ (fun (c : Chunk) bs => (bs.length : Int) = c.size) u.chunks bss) :
    (Ty.union u).bytes target (.union bss) =
      .ok (overlayAll (chunkPieces u.chunks bss) (AbsByte.blank u.size)) := by
  rw [Ty.bytes, writeChunks_eq fit]

theorem bytes_enum_iff {e : EnumTy} {n : Nat} {var : Variant} {payload : Value}
    (hvar : e.variants[n]? = some var) :
    (Ty.enum e).bytes target (.variant n payload) = .ok out ↔
      ∃ bytes ps, var.ty.bytes target payload = .ok bytes ∧ TagPieces target var.tagger ps ∧
        out = overlayAll ps bytes := by
  obtain ⟨variants, discriminator, discriminantTy, size⟩ := e
  rw [Ty.bytes, variantBytes_eq hvar]
  cases var.ty.bytes target payload with
  | error e => simp [Except.bind]
  | ok bytes => simp [Except.bind, writeTag_eq_ok_iff]

end Ty

end Encoding

/-! ## Decoding -/

attribute [local simp] Ty.byteSize Ty.decode decodeFields decodeVariant

namespace Decoded

theorem andThen_eq_some_iff {α β : Type} {x : Decoded α} {f : α → Decoded β} {b : β} :
    x.andThen f = .ok (some b) ↔ ∃ a, x = .ok (some a) ∧ f a = .ok (some b) := by
  unfold andThen
  split <;> simp

theorem map_eq_some_iff {α β : Type} {x : Decoded α} {f : α → β} {b : β} :
    x.map f = .ok (some b) ↔ ∃ a, x = .ok (some a) ∧ f a = b := by
  simp [Decoded.map, andThen_eq_some_iff]

theorem each_eq_some_iff {α β : Type} {f : α → Decoded β} {xs : List α} {ys : List β} :
    each f xs = .ok (some ys) ↔ List.Forall₂ (fun x y => f x = .ok (some y)) xs ys := by
  induction xs generalizing ys with
  | nil => simp [each, eq_comm]
  | cons x xs ih =>
      simp only [each, andThen_eq_some_iff, map_eq_some_iff, ih, List.forall₂_cons_left_iff]
      constructor
      · rintro ⟨y, hy, ys, hys, rfl⟩
        exact ⟨y, ys, hy, hys, rfl⟩
      · rintro ⟨y, ys, hy, hys, rfl⟩
        exact ⟨y, hy, ys, hys, rfl⟩

end Decoded

theorem decodeFields_eq_some_iff {fields : List Field} {data : List AbsByte} {vs : List Value} :
    decodeFields target fields data = .ok (some vs) ↔
      List.Forall₂ (fun (f : Field) v => f.ty.decode target
        (Slice.read data f.offset (f.offset + f.ty.byteSize target)) = .ok (some v)) fields vs := by
  induction fields generalizing vs with
  | nil => simp [eq_comm]
  | cons f fields ih =>
      obtain ⟨offset, ty⟩ := f
      simp only [decodeFields, Decoded.andThen_eq_some_iff, Decoded.map_eq_some_iff, ih,
        List.forall₂_cons_left_iff]
      constructor
      · rintro ⟨v, hv, vs, hvs, rfl⟩
        exact ⟨v, vs, hv, hvs, rfl⟩
      · rintro ⟨v, vs, hv, hvs, rfl⟩
        exact ⟨v, hv, vs, hvs, rfl⟩

theorem decodeVariant_eq {d : Int} {variants : List Variant} {n : Nat} {v : Variant}
    {data : List AbsByte} (hv : variants[n]? = some v) :
    decodeVariant target d variants n data = v.ty.decode target data := by
  induction variants generalizing n with
  | nil => simp at hv
  | cons w variants ih =>
      obtain ⟨ty, tagger⟩ := w
      rw [decodeVariant]
      cases n with
      | zero =>
          obtain rfl : Variant.mk ty tagger = v := by simpa using hv
          rfl
      | succ n =>
          rw [if_neg (by omega), show ((n + 1 : Nat) : Int) - 1 = n by omega]
          exact ih (by simpa using hv)

/-- Only a variant that the enum has stands for a value. -/
theorem exists_of_decodeVariant {d i : Int} {variants : List Variant} {data : List AbsByte}
    {o : Option Value} (h : decodeVariant target d variants i data = .ok o) :
    ∃ (n : Nat) (v : Variant), i = n ∧ variants[n]? = some v := by
  induction variants generalizing i with
  | nil => simp at h
  | cons w variants ih =>
      obtain ⟨ty, tagger⟩ := w
      rw [decodeVariant] at h
      by_cases zero : i = 0
      · exact ⟨0, _, zero, rfl⟩
      · rw [if_neg zero] at h
        obtain ⟨n, v, hn, hv⟩ := ih h
        exact ⟨n + 1, v, by omega, by simpa using hv⟩

namespace Ty

variable {v : Value} {data : List AbsByte}

/-- Bytes that stand for a value are as many as the type has. -/
theorem length_of_decode {ty : Ty} (h : ty.decode target data = .ok (some v)) :
    (data.length : Int) = ty.byteSize target := by
  by_contra other
  rw [Ty.decode.eq_def, if_pos other] at h
  simp at h

theorem decode_bool_iff :
    Ty.bool.decode target data = .ok (some v) ↔ ∃ b, decodeBool data = some b ∧ v = .bool b := by
  rw [Ty.decode]
  by_cases same : (data.length : Int) = 1
  · simp [same, @eq_comm _ v]
  · have none : decodeBool data = none := by
      unfold decodeBool
      split <;> simp_all
    simp [same, none]

theorem decode_int_iff {t : IntTy} :
    (Ty.int t).decode target data = .ok (some v) ↔
      ∃ n, t.decode target data = some n ∧ v = .int n := by
  rw [Ty.decode]
  by_cases same : (data.length : Int) = t.size
  · simp [same, @eq_comm _ v]
  · simp [same, IntTy.decode]

theorem decode_ptr_iff {t : PtrTy} :
    (Ty.ptr t).decode target data = .ok (some v) ↔
      (data.length : Int) = target.ptrSize ∧
        ∃ p, t.decode target data = .ok (some p) ∧ v = .ptr p := by
  rw [Ty.decode]
  by_cases same : (data.length : Int) = target.ptrSize
  · simp [same, Decoded.map_eq_some_iff, @eq_comm _ v]
  · simp [same]

theorem decode_tuple_iff {fields : List Field} {size : Int} :
    (Ty.tuple fields size).decode target data = .ok (some v) ↔
      (data.length : Int) = size ∧ ∃ vs, v = .tuple vs ∧
        List.Forall₂ (fun (f : Field) v => f.ty.decode target
          (Slice.read data f.offset (f.offset + f.ty.byteSize target)) = .ok (some v)) fields vs := by
  rw [Ty.decode]
  by_cases same : (data.length : Int) = size
  · simp [same, Decoded.map_eq_some_iff, decodeFields_eq_some_iff, and_comm,
      @eq_comm _ v]
  · simp [same]

theorem decode_array_iff {elem : Ty} {count : Int} :
    (Ty.array elem count).decode target data = .ok (some v) ↔
      (data.length : Int) = elem.byteSize target * count ∧ ∃ vs, v = .tuple vs ∧
        List.Forall₂ (fun bs v => elem.decode target bs = .ok (some v))
          (elementRanges (elem.byteSize target) count data) vs := by
  rw [Ty.decode]
  by_cases same : (data.length : Int) = elem.byteSize target * count
  · simp [same, Decoded.map_eq_some_iff, Decoded.each_eq_some_iff, and_comm,
      @eq_comm _ v]
  · simp [same]

theorem decode_union_iff {u : UnionTy} :
    (Ty.union u).decode target data = .ok (some v) ↔
      (data.length : Int) = u.size ∧
        v = .union (u.chunks.map fun c => Slice.read data c.start (c.start + c.size)) := by
  rw [Ty.decode]
  by_cases same : (data.length : Int) = u.size
  · simp [same, @eq_comm _ v]
  · simp [same]

theorem decode_enum_iff {e : EnumTy} :
    (Ty.enum e).decode target data = .ok (some v) ↔
      (data.length : Int) = e.size ∧ ∃ (n : Nat) (var : Variant) (payload : Value),
        e.discriminator.decode target data = some (n : Int) ∧ e.variants[n]? = some var ∧
        var.ty.decode target data = .ok (some payload) ∧ v = .variant n payload := by
  obtain ⟨variants, discriminator, discriminantTy, size⟩ := e
  rw [Ty.decode]
  by_cases same : (data.length : Int) = size
  · simp only [Ty.byteSize, same, ne_eq, not_true_eq_false, if_false, true_and]
    cases discriminator.decode target data with
    | none => simp
    | some d =>
        simp only [Decoded.map_eq_some_iff, Option.some.injEq]
        constructor
        · rintro ⟨payload, h, rfl⟩
          obtain ⟨n, var, rfl, hvar⟩ := exists_of_decodeVariant h
          rw [decodeVariant_eq hvar] at h
          exact ⟨n, var, payload, rfl, hvar, h, rfl⟩
        · rintro ⟨n, var, payload, rfl, hvar, h, rfl⟩
          exact ⟨payload, by rw [decodeVariant_eq hvar, h], rfl⟩
  · simp [same]

end Ty

end AbstractMachine
