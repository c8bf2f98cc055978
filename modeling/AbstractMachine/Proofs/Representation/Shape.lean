/-
# AbstractMachine.Proofs.Representation.Shape — the shape of a value, and where it points

There are two things to a well-formed value. It is `Shaped` as its type says: all parts are there,
integers are in range, and pointers have an address. And it is `Ty.Secure`: every safe pointer that it
shows has an address that it may have. Whoever makes a value of the right parts gets the shape for
free, but has to look at the addresses. So the two come apart in values that nobody has looked at, and
`wellFormed_iff` puts them together.

A type whose integers have a size and whose pointees have an alignment can test any value
(`exists_wellFormed`), so a value that is not well-formed is found out.
-/
import AbstractMachine.Proofs.Arithmetic
import AbstractMachine.Proofs.Memory.Retagging
import AbstractMachine.Proofs.Representation.Scalars

namespace AbstractMachine

variable {target : Target} {ty : Ty} {v : Value}

/-! ## Tests that do not fail -/

/-- An answer that can fail with nothing is a success. -/
theorem FailsIn.exists_ok {α : Type} {x : Except Fault α} (h : FailsIn (fun _ => False) x) :
    ∃ a, x = .ok a := by
  cases x with
  | ok a => exact ⟨a, rfl⟩
  | error f => exact (h f rfl).elim

namespace Ty

/-- Whether a value is well-formed can be told at any type whose integers have a size and whose
pointees have an alignment. -/
theorem exists_wellFormed (width : 1 ≤ target.ptrSize) (ints : ty.Every IntSized)
    (aligned : ty.Every PointeeAligned) (v : Value) : ∃ b, ty.wellFormed target v = .ok b := by
  refine (failsIn_wellFormed_of_tests ((ints.and aligned).imp ?_) v).exists_ok
  rintro t ⟨sized, aligned⟩
  cases t with
  | int t =>
      intro n
      rw [t.canRepresent_eq sized]
      exact .ok _
  | ptr t =>
      constructor
      · intro addr
        rw [Target.addrInBounds_eq width]
        exact .ok _
      · intro addr
        obtain ⟨b, valid⟩ := t.exists_validAddr aligned addr
        rw [valid]
        exact .ok _
  | _ => trivial

/-! ## Shape and addresses -/

/-- A value is well-formed but for the addresses of its safe pointers. -/
inductive Shaped (target : Target) : Ty → Value → Prop
  | bool {b : Bool} : Shaped target .bool (.bool b)
  | int {t : IntTy} {n : Int} : t.canRepresent n = .ok true → Shaped target (.int t) (.int n)
  | ptr {t : PtrTy} {p : Pointer} : target.addrInBounds p.addr = .ok true →
      Shaped target (.ptr t) (.ptr p)
  | tuple {fields : List Field} {size : Int} {vs : List Value} :
      List.Forall₂ (fun (f : Field) v => Shaped target f.ty v) fields vs →
      Shaped target (.tuple fields size) (.tuple vs)
  | array {elem : Ty} {count : Int} {vs : List Value} : (vs.length : Int) = count →
      (∀ v ∈ vs, Shaped target elem v) → Shaped target (.array elem count) (.tuple vs)
  | union {u : UnionTy} {bss : List (List AbsByte)} :
      List.Forall₂ (fun (c : Chunk) bs => (bs.length : Int) = c.size) u.chunks bss →
      Shaped target (.union u) (.union bss)
  | enum {e : EnumTy} {n : Nat} {var : Variant} {v : Value} : e.variants[n]? = some var →
      Shaped target var.ty v → Shaped target (.enum e) (.variant n v)

/-- The safe pointers that a value shows have addresses that they may have. -/
def Secure (ty : Ty) (v : Value) : Prop :=
  ∀ p pointee, ty.Shows v p pointee → pointee.validAddr p.addr = .ok true

theorem secure_ptr_iff {t : PtrTy} {p : Pointer} :
    (Ty.ptr t).Secure (.ptr p) ↔ t.validAddr p.addr = .ok true := by
  unfold PtrTy.validAddr
  cases safe : t.safePointee with
  | none =>
      refine iff_of_true ?_ rfl
      intro q pointee shown
      cases shown with
      | ptr found => cases safe.symm.trans found
  | some pointee =>
      constructor
      · intro secure
        exact secure p pointee (.ptr safe)
      · intro valid q pointee' shown
        cases shown with
        | ptr found =>
            cases safe.symm.trans found
            exact valid

theorem secure_tuple_iff {fields : List Field} {size : Int} {vs : List Value} :
    (Ty.tuple fields size).Secure (.tuple vs) ↔ ∀ f v, (f, v) ∈ fields.zip vs → f.ty.Secure v := by
  constructor
  · intro secure f v hv p pointee shown
    exact secure p pointee (.field hv shown)
  · intro secure p pointee shown
    cases shown with
    | field hv shown => exact secure _ _ hv p pointee shown

theorem secure_array_iff {elem : Ty} {count : Int} {vs : List Value} :
    (Ty.array elem count).Secure (.tuple vs) ↔ ∀ v ∈ vs, elem.Secure v := by
  constructor
  · intro secure v hv p pointee shown
    exact secure p pointee (.elem hv shown)
  · intro secure p pointee shown
    cases shown with
    | elem hv shown => exact secure _ hv p pointee shown

theorem secure_enum_iff {e : EnumTy} {n : Nat} {var : Variant} (found : e.variants[n]? = some var) :
    (Ty.enum e).Secure (.variant n v) ↔ var.ty.Secure v := by
  constructor
  · intro secure p pointee shown
    exact secure p pointee (.payload found shown)
  · intro secure p pointee shown
    generalize number : (n : Int) = d at shown
    cases shown with
    | @payload _ k _ _ _ _ found' shown =>
        obtain rfl : n = k := by omega
        cases found.symm.trans found'
        exact secure p pointee shown

/-- A value is well-formed if it has the shape of one, and its safe pointers have addresses that they
may have. -/
theorem wellFormed_iff : ty.wellFormed target v = .ok true ↔ ty.Shaped target v ∧ ty.Secure v := by
  induction ty using Ty.induction generalizing v with
  | bool =>
      rw [wellFormed_bool_iff]
      constructor
      · rintro ⟨b, rfl⟩
        exact ⟨.bool, nofun⟩
      · rintro ⟨shaped, -⟩
        cases shaped with
        | bool => exact ⟨_, rfl⟩
  | int t =>
      rw [wellFormed_int_iff]
      constructor
      · rintro ⟨n, rfl, fits⟩
        exact ⟨.int fits, nofun⟩
      · rintro ⟨shaped, -⟩
        cases shaped with
        | int fits => exact ⟨_, rfl, fits⟩
  | ptr t =>
      rw [wellFormed_ptr_iff]
      constructor
      · rintro ⟨p, rfl, address, valid⟩
        exact ⟨.ptr address, secure_ptr_iff.2 valid⟩
      · rintro ⟨shaped, secure⟩
        cases shaped with
        | ptr address => exact ⟨_, rfl, address, secure_ptr_iff.1 secure⟩
  | tuple fields size ih =>
      rw [wellFormed_tuple_iff]
      constructor
      · rintro ⟨vs, rfl, all⟩
        have each : List.Forall₂ (fun (f : Field) v => f.ty.Shaped target v ∧ f.ty.Secure v)
            fields vs := (forall₂_mem all).imp fun f v h => (ih f h.1).1 h.2
        constructor
        · exact .tuple (each.imp fun f v h => h.1)
        · exact secure_tuple_iff.2 fun f v hv => ((List.forall₂_iff_zip.1 each).2 hv).2
      · rintro ⟨shaped, secure⟩
        cases shaped with
        | tuple all =>
            rw [secure_tuple_iff] at secure
            obtain ⟨same, shaped⟩ := List.forall₂_iff_zip.1 all
            refine ⟨_, rfl, List.forall₂_iff_zip.2 ⟨same, fun {f v} hv => ?_⟩⟩
            exact (ih f (List.of_mem_zip hv).1).2 ⟨shaped hv, secure f v hv⟩
  | array elem count ih =>
      rw [wellFormed_array_iff]
      constructor
      · rintro ⟨vs, rfl, number, all⟩
        constructor
        · exact .array number fun v hv => (ih.1 (all v hv)).1
        · exact secure_array_iff.2 fun v hv => (ih.1 (all v hv)).2
      · rintro ⟨shaped, secure⟩
        cases shaped with
        | array number shaped =>
            rw [secure_array_iff] at secure
            exact ⟨_, rfl, number, fun v hv => ih.2 ⟨shaped v hv, secure v hv⟩⟩
  | union u _ =>
      rw [wellFormed_union_iff]
      constructor
      · rintro ⟨bss, rfl, lengths⟩
        exact ⟨.union lengths, nofun⟩
      · rintro ⟨shaped, -⟩
        cases shaped with
        | union lengths => exact ⟨_, rfl, lengths⟩
  | enum e ih _ =>
      rw [wellFormed_enum_iff]
      constructor
      · rintro ⟨n, var, payload, rfl, found, wf⟩
        obtain ⟨shaped, secure⟩ := (ih var (List.mem_of_getElem? found)).1 wf
        exact ⟨.enum found shaped, (secure_enum_iff found).2 secure⟩
      · rintro ⟨shaped, secure⟩
        cases shaped with
        | enum found shaped =>
            rw [secure_enum_iff found] at secure
            refine ⟨_, _, _, rfl, found, ?_⟩
            exact (ih _ (List.mem_of_getElem? found)).2 ⟨shaped, secure⟩

/-- Testing a value that has the shape of one finds out whether its pointers may be where they are. -/
theorem Shaped.wellFormed_eq_false_iff (width : 1 ≤ target.ptrSize) (ints : ty.Every IntSized)
    (aligned : ty.Every PointeeAligned) (shaped : ty.Shaped target v) :
    ty.wellFormed target v = .ok false ↔ ¬ty.Secure v := by
  obtain ⟨b, tested⟩ := exists_wellFormed width ints aligned v
  cases b with
  | false =>
      refine iff_of_true tested fun secure => ?_
      have valid := wellFormed_iff.2 ⟨shaped, secure⟩
      rw [tested] at valid
      cases valid
  | true =>
      have secure := (wellFormed_iff.1 tested).2
      rw [tested]
      exact iff_of_false nofun (not_not.2 secure)

end Ty

end AbstractMachine
