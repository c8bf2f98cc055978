/-
# AbstractMachine.Proofs.Foreseen — faults that say something of a program

A fault is foreseen if it is an answer about a program, or says that the program is wrong. What is
not foreseen is arithmetic that has no result, a setting that says nothing, and the end of a run in
a place where no run ends.

A type can be wrong in many ways, and in most of them nothing worse comes of it than a defect:
decoding and encoding look at a layout before they use it. Two things they rely on, and a type for
which they hold is `Workable`: an integer has at least one byte, also one that is written as a tag,
and a safe pointer points to something with an alignment.
-/
import AbstractMachine.Proofs.Arithmetic
import AbstractMachine.Proofs.Parts

namespace AbstractMachine

variable {target : Target} {E : Fault → Prop} {α β : Type}

/-- A fault that is an answer about a program, or says that the program is wrong. -/
def Fault.Foreseen : Fault → Prop
  | .terminated => False
  | .arithmetic _ => False
  | .setting _ => False
  | _ => True

instance : Fault.Blaming Fault.Foreseen where
  undefined _ := trivial
  defect _ _ := trivial

/-! ## Integers and addresses -/

section Integers

/-- At a type of at least one byte every operator has a result, or is undefined. -/
theorem IntBinOp.foreseen_eval {t : IntTy} (sized : 1 ≤ t.size) (op : IntBinOp) (l r : Int) :
    FailsIn Fault.Foreseen (op.eval t l r) := by
  have answers : IsUndefined (op.eval t l r) ∨ ∃ n, op.eval t l r = .ok n :=
    op.isUndefined_or_ok sized
  rcases answers with ⟨u, answer⟩ | ⟨n, answer⟩
  · rw [answer]
    exact .error trivial
  · rw [answer]
    exact .ok n

theorem IntTy.failsIn_wrap_of_sized {t : IntTy} (sized : 1 ≤ t.size) (n : Int) :
    FailsIn E (t.wrap n) := by
  rw [t.wrap_eq sized]
  exact .ok _

theorem foreseen_encodeInt (e : Endian) (n : Int) {size : Int} (sized : 0 ≤ size) (signed : Bool) :
    FailsIn Fault.Foreseen (e.encode n size signed) := by
  rw [Endian.encode, if_neg (by omega)]
  exact .ite (.ok _) (.error trivial)

/-- What is asked about addresses is answered where pointers have at least one byte. -/
theorem Target.failsIn_addrInBounds (width : 1 ≤ target.ptrSize) (addr : Int) :
    FailsIn E (target.addrInBounds addr) := by
  rw [target.addrInBounds_eq width]
  exact .ok _

theorem Target.failsIn_isizeInBounds (width : 1 ≤ target.ptrSize) (n : Int) :
    FailsIn E (target.isizeInBounds n) := by
  rw [target.isizeInBounds_eq width]
  exact .ok _

theorem Pointer.failsIn_wrappingOffset (width : 1 ≤ target.ptrSize) (p : Pointer) (offset : Int) :
    FailsIn E (p.wrappingOffset offset target) := by
  rw [Pointer.wrappingOffset, target.wrapAddr_eq width]
  exact .ok _

end Integers

/-! ## Workable types -/

namespace Ty

/-- The tags of an enum are written as integers of at least one byte. -/
def TagsSized : Ty → Prop
  | .enum e => ∀ v ∈ e.variants, ∀ w ∈ v.tagger, 1 ≤ w.ty.size
  | _ => True

/-- What decoding and encoding rely on in a type. -/
structure Workable (t : Ty) : Prop where
  int_sized : t.IntSized
  pointee_aligned : t.PointeeAligned
  tags_sized : t.TagsSized

theorem workable_bool : Ty.bool.Workable := ⟨trivial, trivial, trivial⟩

theorem workable_int {t : IntTy} (sized : 1 ≤ t.size) : (Ty.int t).Workable :=
  ⟨sized, trivial, trivial⟩

theorem all_workable_bool : Ty.bool.All Workable :=
  .of_parts_eq_nil rfl workable_bool

theorem all_workable_int {t : IntTy} (sized : 1 ≤ t.size) : (Ty.int t).All Workable :=
  .of_parts_eq_nil rfl (workable_int sized)

theorem all_workable_raw : (Ty.ptr .raw).All Workable :=
  .of_parts_eq_nil rfl ⟨trivial, nofun, trivial⟩

theorem all_workable_fn : (Ty.ptr .fn).All Workable := by
  refine .of_parts_eq_nil rfl ⟨trivial, ?_, trivial⟩
  rintro _ ⟨⟩
  exact Int.le_refl 1

theorem all_workable_unit : Ty.unit.All Workable :=
  .of_parts_eq_nil rfl ⟨trivial, trivial, trivial⟩

end Ty

/-! ## Representations -/

/-- Whether a pointer may have an address can be told. -/
theorem PtrTy.failsIn_validAddr {t : PtrTy} (h : (Ty.ptr t).PointeeAligned) (addr : Int) :
    FailsIn E (t.validAddr addr) := by
  unfold PtrTy.validAddr
  split
  · exact .ok _
  · next pointee safe =>
      have aligned : 1 ≤ pointee.align := h pointee safe
      exact .ite (failsIn_isAligned_of_ne_zero (by omega) addr) (.ok _)

/-- In a workable type the integers, the pointers and the tags are answered for. -/
theorem Ty.Workable.leaves (width : 1 ≤ target.ptrSize) {ty : Ty} (h : ty.Workable) :
    ty.LeavesFailIn Fault.Foreseen target := by
  cases ty with
  | int t =>
      have sized : 1 ≤ t.size := h.int_sized
      refine ⟨fun n => ?_, fun n => foreseen_encodeInt _ n (by omega) _⟩
      rw [t.canRepresent_eq sized]
      exact .ok _
  | ptr t =>
      exact ⟨target.failsIn_addrInBounds width, t.failsIn_validAddr h.pointee_aligned,
        fun addr => foreseen_encodeInt _ addr (by omega) _⟩
  | enum e =>
      intro v hv w hw n
      have sized : 1 ≤ w.ty.size := h.tags_sized v hv w hw
      exact foreseen_encodeInt _ n (by omega) _
  | _ => trivial

section

variable (width : 1 ≤ target.ptrSize) {ty : Ty} (h : ty.Every Ty.Workable)
include width h

/-- Whether a value is one of a workable type can always be told. -/
theorem Ty.foreseen_wellFormed (v : Value) : FailsIn Fault.Foreseen (ty.wellFormed target v) :=
  failsIn_wellFormed_of_leaves (h.imp fun _ => Workable.leaves width) v

/-- Encoding a value at a workable type fails in foreseen ways only, whatever the value. -/
theorem Ty.foreseen_encode (v : Value) : FailsIn Fault.Foreseen (ty.encode target v) :=
  failsIn_encode_of_leaves (h.imp fun _ => Workable.leaves width) v

/-- Decoding at a workable type fails in foreseen ways only, whatever the bytes. -/
theorem Ty.foreseen_decode (data : List AbsByte) : FailsIn Fault.Foreseen (ty.decode target data) :=
  failsIn_decode_of_leaves (h.imp fun _ => Workable.leaves width) data

end

/-! ## Values -/

theorem UnionTy.foreseen_ofField (width : 1 ≤ target.ptrSize) {u : UnionTy}
    (h : (Ty.union u).All Ty.Workable) (i : Int) (v : Value) :
    FailsIn Fault.Foreseen (u.ofField target i v) := by
  refine .bind (failsIn_elementAt u.fields i trivial) fun f found => ?_
  obtain ⟨n, -, at_⟩ := elementAt_eq_ok_iff.1 found
  have field := (h.view (List.mem_of_getElem? at_)).every
  exact .bind (Ty.foreseen_encode width field v) fun _ _ => .pure _

theorem foreseen_transmute (width : 1 ≤ target.ptrSize) {source ty : Ty}
    (hs : source.Every Ty.Workable) (ht : ty.Every Ty.Workable) (v : Value) :
    FailsIn Fault.Foreseen (v.transmute target source ty) :=
  .transmute (Ty.foreseen_encode width hs v) (Ty.foreseen_decode width ht)

end AbstractMachine
