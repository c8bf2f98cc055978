/-
# AbstractMachine.Proofs.Faults — which faults an operation can raise

Of the ways to fail only some belong to the operations themselves. An operator, a decoder or a
layout finds behaviour undefined, an integer without a result, or a program that is wrong; it never
ends a run, never panics, and never speaks of an allocation that is not there, since it has no
memory to look into. Those are the *ordinary* faults. What else a step can fail with comes from a
pointer that names nothing, from a chooser or a predictor, or from an instruction that says so.

`FailsIn` is closed under the ways in which answers are put together. Most operations blame the
program at worst, whatever they are given, so their lemmas hold of every set of faults that has the
blame in it (`Fault.Blaming`). What tests, encodes or decodes a value fails as the questions do that
it asks about the integers, the pointers and the tags of the type (`Ty.LeavesFailIn`), and what looks
into memory fails as naming an allocation does. That all of this is ordinary follows.
-/
import AbstractMachine.Machine.Run
import AbstractMachine.Proofs.Soundness

namespace AbstractMachine

variable {α β : Type} {E F : Fault → Prop}

/-! ## Answers -/

/-- An answer that goes on with another one succeeds if both do. -/
theorem bind_eq_ok_iff {x : Except Fault α} {f : α → Except Fault β} {b : β} :
    (x >>= f) = .ok b ↔ ∃ a, x = .ok a ∧ f a = .ok b := by
  cases x <;> simp [bind, Except.bind]

/-- All that an answer can fail with lies in a set of faults. -/
def FailsIn (E : Fault → Prop) (x : Except Fault α) : Prop :=
  ∀ f, x = .error f → E f

theorem FailsIn.ok (a : α) : FailsIn E (.ok a) := nofun

theorem FailsIn.pure (a : α) : FailsIn E (Pure.pure a : Except Fault α) := nofun

theorem FailsIn.error {f : Fault} (h : E f) : FailsIn E (.error f : Except Fault α) := by
  rintro _ ⟨⟩
  exact h

theorem FailsIn.throw {f : Fault} (h : E f) : FailsIn E (throw f : Except Fault α) :=
  FailsIn.error h

theorem FailsIn.mono {x : Except Fault α} (h : FailsIn E x) (sub : ∀ f, E f → F f) : FailsIn F x :=
  fun f hf => sub f (h f hf)

/-- Where two answers are put together, the fault is that of the first or of the second. -/
theorem FailsIn.bind {x : Except Fault α} {f : α → Except Fault β} (hx : FailsIn E x)
    (hf : ∀ a, x = .ok a → FailsIn E (f a)) : FailsIn E (x >>= f) := by
  cases x with
  | error e => exact FailsIn.error (hx e rfl)
  | ok a => exact hf a rfl

/-- To rename a success changes no fault. -/
theorem FailsIn.mapOk {x : Except Fault α} {f : α → β} (hx : FailsIn E x) : FailsIn E (x.map f) := by
  cases x with
  | error e => exact FailsIn.error (hx e rfl)
  | ok a => exact FailsIn.ok (f a)

theorem FailsIn.require {c : Bool} {f : Fault} (h : E f) : FailsIn E (require c f) := by
  cases c
  · exact FailsIn.error h
  · exact FailsIn.ok ()

theorem FailsIn.ite {c : Prop} [Decidable c] {x y : Except Fault α} (hx : FailsIn E x)
    (hy : FailsIn E y) : FailsIn E (if c then x else y) := by
  split
  · exact hx
  · exact hy

/-- The faults of operations that look into no memory. -/
def Fault.Ordinary : Fault → Prop
  | .undefined _ | .arithmetic _ => True
  | .defect (.notAnAllocation _) => False
  | .defect _ => True
  | _ => False

/-- The faults that end a program: its end, and a panic. -/
def Fault.Ends : Fault → Prop
  | .terminated | .panicked _ => True
  | _ => False

/-- The faults that say that a program has no meaning. -/
def Fault.IsUndefined : Fault → Prop
  | .undefined _ => True
  | _ => False

/-- A set of faults with all behaviour that is undefined. -/
class Fault.Undefining (E : Fault → Prop) : Prop where
  undefined (cause : Undefined) : E (.undefined cause)

/-- A set of faults with all behaviour that is undefined, and with every defect that is found
without looking into memory. -/
class Fault.Blaming (E : Fault → Prop) : Prop extends Fault.Undefining E where
  defect (cause : Defect) (h : ∀ id, cause ≠ .notAnAllocation id) : E (.defect cause)

instance : Fault.Blaming Fault.Ordinary where
  undefined _ := trivial
  defect cause h := by
    cases cause with
    | notAnAllocation id => exact (h id rfl).elim
    | _ => trivial

theorem Fault.Ordinary.not_ends {f : Fault} (h : f.Ordinary) : ¬f.Ends := by
  cases f <;> first | exact id | exact fun _ => h

instance : Fault.Blaming fun f => ¬f.Ends where
  undefined _ := id
  defect _ _ := id

/-! ## Integers and addresses -/

section Integers

theorem failsIn_shiftedOne (n : Int) : FailsIn Fault.Ordinary (shiftedOne n) :=
  .ite (.error trivial) (.ok _)

namespace IntTy

variable (t : IntTy)

theorem failsIn_min : FailsIn Fault.Ordinary t.min :=
  .ite (.bind (failsIn_shiftedOne _) fun _ _ => .pure _) (.pure _)

theorem failsIn_max : FailsIn Fault.Ordinary t.max :=
  .bind (failsIn_shiftedOne _) fun _ _ => .pure _

theorem failsIn_canRepresent (n : Int) : FailsIn Fault.Ordinary (t.canRepresent n) :=
  .bind t.failsIn_min fun _ _ => .ite (.bind t.failsIn_max fun _ _ => .pure _) (.pure _)

theorem failsIn_wrap (n : Int) : FailsIn Fault.Ordinary (t.wrap n) :=
  .bind (failsIn_shiftedOne _) fun _ _ => .ite (.bind t.failsIn_max fun _ _ => .pure _) (.pure _)

theorem failsIn_shiftAmount (n : Int) : FailsIn Fault.Ordinary (t.shiftAmount n) :=
  .ite (.error trivial) (.ite (.error trivial) (.ok _))

theorem failsIn_bitwise (op : Nat → Nat → Nat) (l r : Int) :
    FailsIn Fault.Ordinary (t.bitwise op l r) :=
  .bind (failsIn_shiftedOne _) fun _ _ => t.failsIn_wrap _

theorem failsIn_quotient (l r : Int) : FailsIn Fault.Ordinary (t.quotient l r) :=
  .bind (.require trivial) fun _ _ => .bind (t.failsIn_canRepresent _) fun _ _ =>
    .bind (.require trivial) fun _ _ => .pure _

theorem failsIn_exactly (operation : String) (n : Int) :
    FailsIn Fault.Ordinary (t.exactly operation n) :=
  .bind (t.failsIn_canRepresent _) fun _ _ => .bind (.require trivial) fun _ _ => .pure _

theorem failsIn_uncheckedAmount (operation : String) (n : Int) :
    FailsIn Fault.Ordinary (t.uncheckedAmount operation n) :=
  .bind (.require trivial) fun _ _ => .pure _

end IntTy

/-- Integer operators fail in ordinary ways only. -/
theorem failsIn_intBinOp (op : IntBinOp) (t : IntTy) (l r : Int) :
    FailsIn Fault.Ordinary (op.eval t l r) := by
  cases op with
  | add | sub | mul => exact t.failsIn_wrap _
  | div => exact t.failsIn_quotient l r
  | rem => exact .bind (t.failsIn_quotient l r) fun _ _ => .pure _
  | shl | shr => exact .bind (t.failsIn_shiftAmount r) fun _ _ => t.failsIn_wrap _
  | bitAnd | bitOr | bitXor => exact t.failsIn_bitwise _ l r
  | addUnchecked | subUnchecked | mulUnchecked => exact t.failsIn_exactly _ _
  | shlUnchecked | shrUnchecked =>
      exact .bind (t.failsIn_uncheckedAmount _ r) fun _ _ => t.failsIn_wrap _

theorem failsIn_encodeInt (e : Endian) (v size : Int) (signed : Bool) :
    FailsIn Fault.Ordinary (e.encode v size signed) :=
  .ite (.error trivial) (.ite (.ok _) (.error trivial))

theorem failsIn_isAligned (addr align : Int) : FailsIn Fault.Ordinary (isAligned addr align) :=
  .ite (.error trivial) (.ok _)

/-- An alignment of zero is the one that cannot be asked for. -/
theorem failsIn_isAligned_of_ne_zero {align : Int} (nonzero : align ≠ 0) (addr : Int) :
    FailsIn E (isAligned addr align) := by
  rw [isAligned_of_ne_zero nonzero]
  exact .ok _

theorem failsIn_validSize (target : Target) (size : Int) :
    FailsIn Fault.Ordinary (target.validSize size) :=
  .ite (.pure _) (.bind (IntTy.failsIn_max _) fun _ _ => .pure _)

theorem failsIn_validAddr (t : PtrTy) (addr : Int) : FailsIn Fault.Ordinary (t.validAddr addr) := by
  unfold PtrTy.validAddr
  split
  · exact .ok _
  · exact .ite (failsIn_isAligned _ _) (.ok _)

theorem failsIn_wrappingOffset (p : Pointer) (offset : Int) (target : Target) :
    FailsIn Fault.Ordinary (p.wrappingOffset offset target) :=
  .bind (IntTy.failsIn_wrap _ _) fun _ _ => .pure _

end Integers

/-! ## Representations -/

section Representations

variable {target : Target}

/-- What is asked of the integers, the pointers and the tags of a type fails in a set of ways. -/
def Ty.LeavesFailIn (E : Fault → Prop) (target : Target) : Ty → Prop
  | .int t => (∀ n, FailsIn E (t.canRepresent n)) ∧
      ∀ n, FailsIn E (target.endian.encode n t.size t.signed)
  | .ptr t => (∀ addr, FailsIn E (target.addrInBounds addr)) ∧
      (∀ addr, FailsIn E (t.validAddr addr)) ∧
      ∀ addr, FailsIn E (target.endian.encode addr target.ptrSize false)
  | .enum e => ∀ v ∈ e.variants, ∀ w ∈ v.tagger, ∀ n,
      FailsIn E (target.endian.encode n w.ty.size w.ty.signed)
  | _ => True

/-- What testing a value asks of the integers and the pointers of a type fails in a set of ways. -/
def Ty.TestsFailIn (E : Fault → Prop) (target : Target) : Ty → Prop
  | .int t => ∀ n, FailsIn E (t.canRepresent n)
  | .ptr t => (∀ addr, FailsIn E (target.addrInBounds addr)) ∧ ∀ addr, FailsIn E (t.validAddr addr)
  | _ => True

theorem Ty.LeavesFailIn.tests {ty : Ty} (h : ty.LeavesFailIn E target) :
    ty.TestsFailIn E target := by
  cases ty with
  | int t => exact h.1
  | ptr t => exact ⟨h.1, h.2.1⟩
  | _ => trivial

theorem FailsIn.allOk {test : α → Except Fault Bool} {xs : List α}
    (h : ∀ x ∈ xs, FailsIn E (test x)) : FailsIn E (allOk test xs) := by
  induction xs with
  | nil => exact .ok _
  | cons x xs ih =>
      have head := h x List.mem_cons_self
      have tail := ih fun y hy => h y (List.mem_cons_of_mem x hy)
      rw [AbstractMachine.allOk]
      split
      · exact .error (head _ ‹_›)
      · exact .ok _
      · exact tail

/-- Testing fields fails as testing each of them does. -/
theorem FailsIn.fieldsWellFormed {fields : List Field}
    (h : ∀ f ∈ fields, ∀ v, FailsIn E (f.ty.wellFormed target v)) (vs : List Value) :
    FailsIn E (fieldsWellFormed target fields vs) := by
  induction fields generalizing vs with
  | nil => cases vs <;> exact .ok _
  | cons f rest ih =>
      obtain ⟨offset, ty⟩ := f
      cases vs with
      | nil => exact .ok _
      | cons v vs =>
          have head := h ⟨offset, ty⟩ List.mem_cons_self v
          rw [AbstractMachine.fieldsWellFormed]
          split
          · exact .error (head _ ‹_›)
          · exact .ok _
          · exact ih (fun f hf => h f (List.mem_cons_of_mem _ hf)) vs

/-- Testing a payload fails as testing it at one of the variants does. -/
theorem FailsIn.variantWellFormed {variants : List Variant}
    (h : ∀ var ∈ variants, ∀ v, FailsIn E (var.ty.wellFormed target v)) (d : Int) (v : Value) :
    FailsIn E (variantWellFormed target variants d v) := by
  induction variants generalizing d with
  | nil => exact .ok _
  | cons var rest ih =>
      obtain ⟨ty, tagger⟩ := var
      rw [AbstractMachine.variantWellFormed]
      exact .ite (h _ List.mem_cons_self v) (ih (fun u hu => h u (List.mem_cons_of_mem _ hu)) _)

/-- Looking at a value at a type fails as asking its integers and pointers does. -/
theorem Ty.failsIn_wellFormed_of_tests {ty : Ty} (h : ty.Every (TestsFailIn E target)) (v : Value) :
    FailsIn E (ty.wellFormed target v) := by
  induction ty using Ty.induction generalizing v with
  | bool | union => cases v <;> exact .ok _
  | int t =>
      cases v with
      | int n => exact h.here n
      | _ => exact .ok _
  | ptr t =>
      cases v with
      | ptr p =>
          rw [Ty.wellFormed]
          refine .bind (h.here.1 _) fun inBounds _ => ?_
          cases inBounds
          · exact .pure _
          · exact h.here.2 _
      | _ => exact .ok _
  | tuple fields size ih =>
      cases v with
      | tuple vs =>
          rw [Ty.wellFormed]
          exact .ite (.fieldsWellFormed (fun f hf => ih f hf (h.field hf)) vs) (.ok _)
      | _ => exact .ok _
  | array elem count ih =>
      cases v with
      | tuple vs =>
          rw [Ty.wellFormed]
          exact .ite (.allOk fun v _ => ih h.elem v) (.ok _)
      | _ => exact .ok _
  | enum e ih _ =>
      obtain ⟨variants, discriminator, discriminantTy, size⟩ := e
      cases v with
      | variant d payload =>
          exact .variantWellFormed (fun var hvar => ih var hvar (h.payload hvar)) d payload
      | _ => exact .ok _

theorem Ty.failsIn_wellFormed_of_leaves {ty : Ty} (h : ty.Every (LeavesFailIn E target))
    (v : Value) : FailsIn E (ty.wellFormed target v) :=
  failsIn_wellFormed_of_tests (h.imp fun _ leaves => leaves.tests) v

/-- Tags are written as their integers are. -/
theorem FailsIn.writeTag {ws : List TagWrite}
    (h : ∀ w ∈ ws, ∀ n, FailsIn E (target.endian.encode n w.ty.size w.ty.signed))
    (buffer : List AbsByte) : FailsIn E (writeTag target ws buffer) := by
  induction ws generalizing buffer with
  | nil => exact .ok _
  | cons w rest ih =>
      rw [AbstractMachine.writeTag]
      refine .bind (.bind (h w List.mem_cons_self _) fun _ _ => .pure _) fun _ _ => ?_
      exact ih (fun w hw => h w (List.mem_cons_of_mem _ hw)) _

theorem FailsIn.concatOk {f : α → Except Fault (List β)} {xs : List α}
    (h : ∀ x ∈ xs, FailsIn E (f x)) : FailsIn E (concatOk f xs) := by
  induction xs with
  | nil => exact .ok _
  | cons x xs ih =>
      exact .bind (h x List.mem_cons_self) fun _ _ =>
        .bind (ih fun y hy => h y (List.mem_cons_of_mem x hy)) fun _ _ => .pure _

/-- Writing fields fails as writing each of them does. -/
theorem FailsIn.fieldBytes {fields : List Field}
    (h : ∀ f ∈ fields, ∀ v, FailsIn E (f.ty.bytes target v)) (vs : List Value)
    (buffer : List AbsByte) : FailsIn E (fieldBytes target fields vs buffer) := by
  induction fields generalizing vs buffer with
  | nil => exact .ok _
  | cons f rest ih =>
      obtain ⟨offset, ty⟩ := f
      cases vs with
      | nil => exact .ok _
      | cons v vs =>
          rw [AbstractMachine.fieldBytes]
          refine .bind (h ⟨offset, ty⟩ List.mem_cons_self v) fun _ _ => ?_
          exact ih (fun f hf => h f (List.mem_cons_of_mem _ hf)) vs _

/-- Writing a variant fails as writing one of the payloads or of the tags does, or since there is no
such variant. -/
theorem FailsIn.variantBytes [Fault.Blaming E] {variants : List Variant} {d : Int}
    (h : ∀ var ∈ variants, ∀ v, FailsIn E (var.ty.bytes target v))
    (tags : ∀ var ∈ variants, ∀ w ∈ var.tagger, ∀ n,
      FailsIn E (target.endian.encode n w.ty.size w.ty.signed))
    (index : Int) (v : Value) :
    FailsIn E (variantBytes target d variants index v) := by
  induction variants generalizing index with
  | nil => exact .error (Fault.Blaming.defect _ nofun)
  | cons var rest ih =>
      obtain ⟨ty, tagger⟩ := var
      rw [AbstractMachine.variantBytes]
      refine .ite (.bind (h _ List.mem_cons_self v) fun _ _ => ?_) ?_
      · exact .writeTag (tags _ List.mem_cons_self) _
      · exact ih (fun u hu => h u (List.mem_cons_of_mem _ hu))
          (fun u hu => tags u (List.mem_cons_of_mem _ hu)) _

/-- Writing a value fails as writing integers does, or because the value does not fit the type. -/
theorem Ty.failsIn_bytes_of_leaves [Fault.Blaming E] {ty : Ty}
    (h : ty.Every (LeavesFailIn E target)) (v : Value) : FailsIn E (ty.bytes target v) := by
  have illFormed (v : Value) (t : Ty) : E (.defect (.illFormed v t)) :=
    Fault.Blaming.defect _ nofun
  induction ty using Ty.induction generalizing v with
  | bool =>
      cases v with
      | bool b => exact .ok _
      | _ => exact .error (illFormed _ _)
  | int t =>
      cases v with
      | int n => exact .bind (h.here.2 n) fun _ _ => .pure _
      | _ => exact .error (illFormed _ _)
  | ptr t =>
      cases v with
      | ptr p => exact .bind (h.here.2.2 _) fun _ _ => .pure _
      | _ => exact .error (illFormed _ _)
  | tuple fields size ih =>
      cases v with
      | tuple vs => exact .fieldBytes (fun f hf => ih f hf (h.field hf)) vs _
      | _ => exact .error (illFormed _ _)
  | array elem count ih =>
      cases v with
      | tuple vs => exact .concatOk fun v _ => ih h.elem v
      | _ => exact .error (illFormed _ _)
  | union u _ =>
      cases v with
      | union bss => exact .ok _
      | _ => exact .error (illFormed _ _)
  | enum e ih _ =>
      obtain ⟨variants, discriminator, discriminantTy, size⟩ := e
      cases v with
      | variant d payload =>
          exact .variantBytes (fun var hvar => ih var hvar (h.payload hvar)) h.here d payload
      | _ => exact .error (illFormed _ _)

theorem Ty.failsIn_encode_of_leaves [Fault.Blaming E] {ty : Ty}
    (h : ty.Every (LeavesFailIn E target)) (v : Value) : FailsIn E (ty.encode target v) :=
  .bind (failsIn_wellFormed_of_leaves h v) fun _ _ =>
    .bind (.require (Fault.Blaming.defect _ nofun)) fun _ _ => failsIn_bytes_of_leaves h v

theorem FailsIn.andThen {x : Decoded α} {f : α → Decoded β} (hx : FailsIn E x)
    (hf : ∀ a, FailsIn E (f a)) : FailsIn E (x.andThen f) := by
  match x with
  | .error e => exact .error (hx e rfl)
  | .ok none => exact .ok _
  | .ok (some a) => exact hf a

theorem FailsIn.map {x : Decoded α} {f : α → β} (hx : FailsIn E x) : FailsIn E (x.map f) :=
  .andThen hx fun _ => .ok _

theorem FailsIn.each {f : α → Decoded β} {xs : List α} (h : ∀ x, FailsIn E (f x)) :
    FailsIn E (Decoded.each f xs) := by
  induction xs with
  | nil => exact .ok _
  | cons x xs ih => exact .andThen (h x) fun _ => .map ih

theorem PtrTy.failsIn_decode {t : PtrTy} (h : ∀ addr, FailsIn E (t.validAddr addr))
    (data : List AbsByte) : FailsIn E (t.decode target data) := by
  unfold PtrTy.decode
  split
  · exact .ok _
  · simp only []
    split
    · exact .error (h _ _ ‹_›)
    · exact .ok _
    · exact .ok _

/-- Reading fields fails as reading each of them does. -/
theorem FailsIn.decodeFields {fields : List Field}
    (h : ∀ f ∈ fields, ∀ data, FailsIn E (f.ty.decode target data)) (data : List AbsByte) :
    FailsIn E (decodeFields target fields data) := by
  induction fields with
  | nil => exact .ok _
  | cons f rest ih =>
      obtain ⟨offset, ty⟩ := f
      rw [AbstractMachine.decodeFields]
      refine .andThen (h ⟨offset, ty⟩ List.mem_cons_self _) fun _ => .map ?_
      exact ih fun f hf => h f (List.mem_cons_of_mem _ hf)

/-- Reading a payload fails as reading it at one of the variants does, or because there is no such
variant. -/
theorem FailsIn.decodeVariant [Fault.Blaming E] {variants : List Variant} {d : Int}
    (h : ∀ var ∈ variants, ∀ data, FailsIn E (var.ty.decode target data)) (index : Int)
    (data : List AbsByte) : FailsIn E (decodeVariant target d variants index data) := by
  induction variants generalizing index with
  | nil => exact .error (Fault.Blaming.defect _ nofun)
  | cons var rest ih =>
      obtain ⟨ty, tagger⟩ := var
      rw [AbstractMachine.decodeVariant]
      exact .ite (h _ List.mem_cons_self data) (ih (fun u hu => h u (List.mem_cons_of_mem _ hu)) _)

/-- Decoding fails as asking for the addresses of pointers does, or since there is no such variant.
-/
theorem Ty.failsIn_decode_of_leaves [Fault.Blaming E] {ty : Ty}
    (h : ty.Every (LeavesFailIn E target)) (data : List AbsByte) :
    FailsIn E (ty.decode target data) := by
  induction ty using Ty.induction generalizing data with
  | bool | int | union =>
      rw [Ty.decode]
      exact .ite (.ok _) (.ok _)
  | ptr t =>
      rw [Ty.decode]
      exact .ite (.ok _) (.map (t.failsIn_decode h.here.2.1 data))
  | tuple fields size ih =>
      rw [Ty.decode]
      exact .ite (.ok _) (.map (.decodeFields (fun f hf => ih f hf (h.field hf)) data))
  | array elem count ih =>
      rw [Ty.decode]
      exact .ite (.ok _) (.map (.each fun bs => ih h.elem bs))
  | enum e ih _ =>
      obtain ⟨variants, discriminator, discriminantTy, size⟩ := e
      rw [Ty.decode]
      refine .ite (.ok _) ?_
      split
      · exact .ok _
      · exact .map (.decodeVariant (fun var hvar => ih var hvar (h.payload hvar)) _ data)

/-! ### In ordinary ways -/

variable (target)

theorem Ty.ordinary_leaves (ty : Ty) : ty.Every (LeavesFailIn Fault.Ordinary target) :=
  .of_forall (fun t => by
    cases t with
    | int t => exact ⟨t.failsIn_canRepresent, fun n => failsIn_encodeInt _ n _ _⟩
    | ptr t =>
        exact ⟨IntTy.failsIn_canRepresent _, failsIn_validAddr t, fun n => failsIn_encodeInt _ n _ _⟩
    | enum e => exact fun _ _ _ _ n => failsIn_encodeInt _ n _ _
    | _ => trivial) ty

/-- Looking at a value at a type fails in ordinary ways only. -/
theorem Ty.failsIn_wellFormed (ty : Ty) (v : Value) :
    FailsIn Fault.Ordinary (ty.wellFormed target v) :=
  failsIn_wellFormed_of_leaves (ty.ordinary_leaves target) v

/-- Encoding fails in ordinary ways only. -/
theorem Ty.failsIn_encode (ty : Ty) (v : Value) : FailsIn Fault.Ordinary (ty.encode target v) :=
  failsIn_encode_of_leaves (ty.ordinary_leaves target) v

/-- Decoding fails in ordinary ways only. -/
theorem Ty.failsIn_decode (ty : Ty) (data : List AbsByte) :
    FailsIn Fault.Ordinary (ty.decode target data) :=
  failsIn_decode_of_leaves (ty.ordinary_leaves target) data

end Representations

/-! ## Values -/

section Values

theorem failsIn_elementAt (xs : List α) (i : Int) {missing : Defect}
    (h : E (.defect missing)) : FailsIn E (elementAt xs i missing) := by
  unfold elementAt
  split
  · exact .ok _
  · exact .error h

variable [Fault.Blaming E] {target : Target}

open Fault.Undefining Fault.Blaming

theorem failsIn_intOperand (v : Value) (ty : Ty) : FailsIn E (intOperand v ty) := by
  unfold intOperand
  split
  · exact .ok _
  · exact .error (defect _ nofun)

theorem failsIn_boolOperand (v : Value) : FailsIn E (boolOperand v) := by
  unfold boolOperand
  split
  · exact .ok _
  · exact .error (defect _ nofun)

theorem failsIn_comparable (v : Value) : FailsIn E (comparable v) := by
  unfold comparable
  split
  iterate 3 exact .ok _
  exact .error (defect _ nofun)

theorem failsIn_relOp (op : RelOp) (l r : Value) : FailsIn E (op.eval l r) := by
  refine .bind (failsIn_comparable l) fun _ _ => .bind (failsIn_comparable r) fun _ _ => ?_
  exact .ite (.pure _) (.pure _)

/-- A value is read at another type by encoding it and decoding it. -/
theorem FailsIn.transmute {v : Value} {source ty : Ty}
    (encoded : FailsIn E (source.encode target v))
    (decoded : ∀ data, FailsIn E (ty.decode target data)) :
    FailsIn E (v.transmute target source ty) := by
  refine .bind (.require (undefined _)) fun _ _ => .bind encoded fun data _ => ?_
  refine .bind (decoded data) fun w _ => ?_
  cases w with
  | none => exact .throw (undefined _)
  | some w => exact .pure w

theorem failsIn_transmute (target : Target) (v : Value) (source ty : Ty) :
    FailsIn Fault.Ordinary (v.transmute target source ty) :=
  .transmute (source.failsIn_encode target v) (ty.failsIn_decode target)

theorem Ty.failsIn_fieldAt (ty : Ty) (i : Int) : FailsIn E (ty.fieldAt i) := by
  cases ty with
  | tuple fields size => exact failsIn_elementAt fields i (defect _ nofun)
  | union u => exact failsIn_elementAt u.fields i (defect _ nofun)
  | _ => exact .error (defect _ nofun)

theorem Ty.failsIn_requireTuple (ty : Ty) : FailsIn E ty.requireTuple := by
  cases ty with
  | tuple fields size => exact .ok ()
  | array elem count => exact .ok ()
  | _ => exact .error (defect _ nofun)

theorem UnionTy.failsIn_ofField (target : Target) (u : UnionTy) (i : Int) (v : Value) :
    FailsIn Fault.Ordinary (u.ofField target i v) :=
  .bind (failsIn_elementAt u.fields i trivial) fun f _ =>
    .bind (f.ty.failsIn_encode target v) fun _ _ => .pure _

theorem EnumTy.failsIn_variantAt (e : EnumTy) (d : Int) : FailsIn E (e.variantAt d) :=
  failsIn_elementAt e.variants d (defect _ nofun)

theorem Ty.failsIn_elementOffset (target : Target) (ty : Ty) (i : Value) :
    FailsIn E (ty.elementOffset target i) := by
  unfold Ty.elementOffset
  split
  · exact .bind (.require (undefined _)) fun _ _ => .pure _
  · exact .throw (defect _ nofun)
  · exact .throw (defect _ nofun)

end Values

/-! ## Memory -/

section Access

variable {m : Memory} {p : Pointer} {size align : Int}

theorem FailsIn.load (checked : FailsIn E (m.checkPtr p size align)) :
    FailsIn E (m.load p size align) := by
  refine .bind checked fun o _ => ?_
  cases o <;> exact .pure _

theorem FailsIn.store {data : List AbsByte} (checked : FailsIn E (m.checkPtr p data.length align)) :
    FailsIn E (m.store p data align) := by
  refine .bind checked fun o _ => ?_
  cases o <;> exact .pure _

theorem FailsIn.dereferenceable (checked : FailsIn E (m.checkPtr p size align)) :
    FailsIn E (m.dereferenceable p size align) :=
  .bind checked fun _ _ => .pure _

/-- Retagging looks at what a safe pointer points to, and leaves all others alone. -/
theorem FailsIn.retag {t : PtrTy}
    (checked : ∀ pointee, t.safePointee = some pointee →
      FailsIn E (m.checkPtr p pointee.size pointee.align)) : FailsIn E (m.retag p t) := by
  unfold Memory.retag
  split
  · exact .ok p
  · next pointee safe => exact .bind (.dereferenceable (checked pointee safe)) fun _ _ => .pure _

variable [Fault.Undefining E]

open Fault.Undefining

theorem FailsIn.deallocate {kind : AllocKind}
    (named : ∀ id, p.provenance = some id → FailsIn E (m.allocation id)) :
    FailsIn E (m.deallocate p size align kind) := by
  unfold Memory.deallocate
  cases is : p.provenance with
  | none => exact .error (undefined _)
  | some id =>
      refine .bind (named id is) fun a _ => ?_
      iterate 5 refine .bind (.require (undefined _)) fun _ _ => ?_
      exact .pure _

/-- Judging an access fails as asking for the alignment does, or as naming the allocation does. -/
theorem FailsIn.checkPtr (aligned : FailsIn E (isAligned p.addr align))
    (named : ∀ id, p.provenance = some id → FailsIn E (m.allocation id)) :
    FailsIn E (m.checkPtr p size align) := by
  unfold Memory.checkPtr
  refine .bind aligned fun _ _ => .bind (.require (undefined _)) fun _ _ => .ite (.pure _) ?_
  refine .bind (.require (undefined _)) fun _ _ => ?_
  cases is : p.provenance with
  | none => exact .throw (undefined _)
  | some id =>
      refine .bind (named id is) fun a _ => ?_
      iterate 2 refine .bind (.require (undefined _)) fun _ _ => ?_
      exact .pure _

theorem FailsIn.typedLoad {place : PlaceTy}
    (checked : ∀ size, FailsIn E (m.checkPtr p size place.align))
    (decoded : ∀ data, FailsIn E (place.ty.decode m.target data)) :
    FailsIn E (m.typedLoad p place) := by
  refine .bind (.load (checked _)) fun data _ => .bind (decoded data) fun o _ => ?_
  cases o with
  | none => exact .throw (undefined _)
  | some v => exact .pure v

theorem FailsIn.typedStore {place : PlaceTy} {v : Value}
    (told : FailsIn E (place.ty.wellFormed m.target v))
    (encoded : FailsIn E (place.ty.encode m.target v))
    (checked : ∀ size, FailsIn E (m.checkPtr p size place.align)) :
    FailsIn E (m.typedStore p v place) :=
  .bind told fun _ _ => .bind (.require (undefined _)) fun _ _ =>
    .bind encoded fun _ _ => .store (checked _)

theorem FailsIn.offsetInBounds {offset : Int} (signed : ∀ n, FailsIn E (m.target.isizeInBounds n))
    (unsigned : ∀ addr, FailsIn E (m.target.addrInBounds addr))
    (checked : ∀ addr size, FailsIn E (m.checkPtr { p with addr } size 1)) :
    FailsIn E (m.offsetInBounds p offset) := by
  refine .bind (signed _) fun _ _ => .bind (.require (undefined _)) fun _ _ => ?_
  refine .bind (unsigned _) fun _ _ => .bind (.require (undefined _)) fun _ _ => ?_
  exact .bind (.dereferenceable (checked _ _)) fun _ _ => .pure _

end Access

namespace Memory

variable {m : Memory} {W : AllocId → Prop}

/-- A fault of memory when it is asked about allocations with names in a set: an ordinary one, or
one of the names is that of no allocation. -/
def Refuses (m : Memory) (W : AllocId → Prop) (f : Fault) : Prop :=
  f.Ordinary ∨ ∃ id, W id ∧ m.allocation id = .error f

/-- A fault that can be nothing else than undefined, unless one of the names is that of no allocation.
-/
def Denies (m : Memory) (W : AllocId → Prop) (f : Fault) : Prop :=
  f.IsUndefined ∨ ∃ id, W id ∧ m.allocation id = .error f

instance : Fault.Undefining (m.Denies W) where
  undefined _ := .inl trivial

instance : Fault.Blaming (m.Refuses W) where
  undefined _ := .inl trivial
  defect cause h := .inl (Fault.Blaming.defect cause h)

theorem failsIn_of_ordinary {x : Except Fault α} (h : FailsIn Fault.Ordinary x) :
    FailsIn (m.Refuses W) x :=
  h.mono fun _ => .inl

theorem failsIn_allocation {id : AllocId} (h : W id) : FailsIn (m.Refuses W) (m.allocation id) :=
  fun _ hf => .inr ⟨id, h, hf⟩

theorem failsIn_constraints (m : Memory) (size align : Int) :
    FailsIn Fault.Ordinary (m.constraints size align) :=
  .bind (failsIn_validSize _ _) fun _ _ => .bind (.require trivial) fun _ _ =>
    .bind (.require trivial) fun _ _ => .bind (failsIn_shiftedOne _) fun _ _ => .pure _

theorem failsIn_admits (c : AddressConstraints) (addr : Int) :
    FailsIn Fault.Ordinary (c.admits addr) :=
  .ite (.ok _) (.ite (.error trivial) (.ok _))

variable {p : Pointer} {size align : Int}

section Named

variable (h : ∀ id, p.provenance = some id → W id)
include h

theorem failsIn_deallocate {kind : AllocKind} :
    FailsIn (m.Refuses W) (m.deallocate p size align kind) :=
  .deallocate fun id named => failsIn_allocation (h id named)

/-- An access can only fail in an ordinary way, or because the pointer names no allocation. -/
theorem failsIn_checkPtr : FailsIn (m.Refuses W) (m.checkPtr p size align) :=
  .checkPtr (failsIn_of_ordinary (failsIn_isAligned _ _)) fun id named =>
    failsIn_allocation (h id named)

theorem failsIn_load : FailsIn (m.Refuses W) (m.load p size align) :=
  .load (failsIn_checkPtr h)

theorem failsIn_store {data : List AbsByte} : FailsIn (m.Refuses W) (m.store p data align) :=
  .store (failsIn_checkPtr h)

theorem failsIn_typedLoad {place : PlaceTy} : FailsIn (m.Refuses W) (m.typedLoad p place) :=
  .typedLoad (fun _ => failsIn_checkPtr h) fun _ => failsIn_of_ordinary (Ty.failsIn_decode _ _ _)

theorem failsIn_typedStore {place : PlaceTy} {v : Value} :
    FailsIn (m.Refuses W) (m.typedStore p v place) :=
  .typedStore (failsIn_of_ordinary (Ty.failsIn_wellFormed _ _ _))
    (failsIn_of_ordinary (Ty.failsIn_encode _ _ _)) fun _ => failsIn_checkPtr h

theorem failsIn_offsetInBounds {offset : Int} :
    FailsIn (m.Refuses W) (m.offsetInBounds p offset) :=
  .offsetInBounds (fun _ => failsIn_of_ordinary (IntTy.failsIn_canRepresent _ _))
    (fun _ => failsIn_of_ordinary (IntTy.failsIn_canRepresent _ _)) fun _ _ => failsIn_checkPtr h

theorem failsIn_retag {ty : PtrTy} : FailsIn (m.Refuses W) (m.retag p ty) :=
  .retag fun _ _ => failsIn_checkPtr h

end Named

end Memory

/-! ## Frames, functions and arguments -/

section Frames

variable [Fault.Blaming E]

open Fault.Undefining Fault.Blaming

theorem Frame.failsIn_localTy (f : Frame) (name : String) : FailsIn E (f.localTy name) := by
  unfold Frame.localTy
  split
  · exact .ok _
  · exact .error (defect _ nofun)

theorem Machine.failsIn_startFunction (program : Program) :
    FailsIn E (Machine.startFunction program) := by
  unfold Machine.startFunction
  split
  · exact .error (defect _ nofun)
  · exact .bind (.require (defect _ nofun)) fun _ _ => .pure _

theorem Machine.failsIn_currentBlock (f : Frame) : FailsIn E (Machine.currentBlock f) := by
  unfold Machine.currentBlock
  split
  · exact .error (defect _ nofun)
  · split
    · exact .ok _
    · exact .error (defect _ nofun)

theorem Machine.failsIn_calledFunction (m : Machine) (v : Value) :
    FailsIn E (m.calledFunction v) := by
  unfold Machine.calledFunction
  split
  · split
    · exact .ok _
    · exact .error (undefined _)
  · exact .error (defect _ nofun)

theorem failsIn_intArgument (a : Value × Ty) : FailsIn E (intArgument a) := by
  unfold intArgument
  split
  · exact .ok _
  · exact .error (undefined _)

theorem failsIn_ptrArgument (a : Value × Ty) : FailsIn E (ptrArgument a) := by
  unfold ptrArgument
  split
  · exact .ok _
  · exact .error (undefined _)

/-- A value is printed unless it is none that can be, or its digits are too many. -/
theorem FailsIn.printed (long : E (.arithmetic .tooManyDigits)) (a : Value × Ty) :
    FailsIn E (AbstractMachine.printed a) := by
  unfold AbstractMachine.printed
  split
  · cases Text.decimal? _ with
    | none => exact .error long
    | some s => exact .ok s
  · exact .ok _
  · exact .error (undefined _)

theorem failsIn_printed (a : Value × Ty) : FailsIn Fault.Ordinary (printed a) :=
  .printed trivial a

end Frames

end AbstractMachine
