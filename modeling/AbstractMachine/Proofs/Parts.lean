/-
# AbstractMachine.Proofs.Parts — all types that a type is written with

A program does not only come across the components of a type's values. It may look at a union through
one of its fields, and the number of an enum's variant is a value of the enum's discriminant type. So
what is to hold of every type that a program can come to from a type is asked of all its `parts`.

Evaluating needs of types that sizes and counts are what they have to be, and that the numbers which
a decision tree may end with are values of the discriminant type: such types are `Regular`. It asks
nothing about how components lie to each other.
-/
import AbstractMachine.Proofs.Faults
import AbstractMachine.Proofs.Soundness

namespace AbstractMachine

theorem elementAt_eq_ok_iff {α : Type} {xs : List α} {i : Int} {missing : Defect} {x : α} :
    elementAt xs i missing = .ok x ↔ ∃ n : Nat, i = n ∧ xs[n]? = some x := by
  unfold elementAt
  by_cases nonneg : 0 ≤ i
  · obtain ⟨n, rfl⟩ := Int.eq_ofNat_of_zero_le nonneg
    rw [if_pos nonneg, Int.toNat_natCast]
    constructor
    · intro found
      cases at_ : xs[n]? with
      | none => simp [at_] at found
      | some y =>
          simp only [at_, Except.ok.injEq] at found
          exact ⟨n, rfl, at_.trans (congrArg some found)⟩
    · rintro ⟨k, same, found⟩
      rw [Int.natCast_inj.1 same, found]
  · rw [if_neg nonneg]
    constructor
    · rintro ⟨⟩
    · rintro ⟨n, rfl, -⟩
      omega

namespace Ty

/-! ## Parts -/

/-- The types that a type is made of: its components, the fields of a union, and the type of an
enum's discriminants. -/
def parts : Ty → List Ty
  | .tuple fields _ => fields.map (·.ty)
  | .array elem _ => [elem]
  | .union u => u.fields.map (·.ty)
  | .enum e => e.discriminantTy :: e.variants.map (·.ty)
  | _ => []

theorem components_subset_parts (ty : Ty) : ty.components ⊆ ty.parts := by
  intro t ht
  cases ty with
  | tuple fields size => exact ht
  | array elem count => exact ht
  | enum e => exact List.mem_cons_of_mem _ ht
  | _ => cases ht

/-- A condition holds of a type, of its parts, of their parts, and so on. -/
inductive All (P : Ty → Prop) : Ty → Prop
  | intro {ty : Ty} (here : P ty) (parts : ∀ t ∈ ty.parts, All P t) : All P ty

namespace All

variable {P Q : Ty → Prop}

theorem here {ty : Ty} : ty.All P → P ty
  | intro here _ => here

theorem part {ty t : Ty} (h : ty.All P) (ht : t ∈ ty.parts) : t.All P := by
  obtain ⟨-, parts⟩ := h
  exact parts t ht

theorem imp (imp : ∀ t, P t → Q t) {ty : Ty} (h : ty.All P) : ty.All Q := by
  induction h with
  | intro here _ ih => exact intro (imp _ here) ih

/-- What holds of all parts holds of the components. -/
theorem every {ty : Ty} (h : ty.All P) : ty.Every P := by
  induction h with
  | @intro ty here _ ih => exact .intro here fun t ht => ih t (components_subset_parts ty ht)

theorem field {fields : List Field} {size : Int} (h : (Ty.tuple fields size).All P) {f : Field}
    (hf : f ∈ fields) : f.ty.All P :=
  h.part (List.mem_map_of_mem hf)

theorem elem {elem : Ty} {count : Int} (h : (Ty.array elem count).All P) : elem.All P :=
  h.part List.mem_cons_self

theorem view {u : UnionTy} (h : (Ty.union u).All P) {f : Field} (hf : f ∈ u.fields) : f.ty.All P :=
  h.part (List.mem_map_of_mem hf)

theorem payload {e : EnumTy} (h : (Ty.enum e).All P) {v : Variant} (hv : v ∈ e.variants) :
    v.ty.All P :=
  h.part (List.mem_cons_of_mem _ (List.mem_map_of_mem hv))

theorem discriminant {e : EnumTy} (h : (Ty.enum e).All P) : e.discriminantTy.All P :=
  h.part List.mem_cons_self

/-- The field that a program goes to. -/
theorem of_fieldAt {ty : Ty} (h : ty.All P) {i : Int} {f : Field} (found : ty.fieldAt i = .ok f) :
    f.ty.All P := by
  cases ty with
  | tuple fields size =>
      obtain ⟨n, -, found⟩ := elementAt_eq_ok_iff.1 found
      exact h.field (List.mem_of_getElem? found)
  | union u =>
      obtain ⟨n, -, found⟩ := elementAt_eq_ok_iff.1 found
      exact h.view (List.mem_of_getElem? found)
  | _ => cases found

/-- The element that a program goes to. -/
theorem of_elementOffset {target : Target} {ty elem : Ty} (h : ty.All P) {i : Value}
    {distance size : Int} (found : ty.elementOffset target i = .ok (distance, elem, size)) :
    elem.All P := by
  unfold Ty.elementOffset at found
  split at found
  · obtain ⟨_, -, found⟩ := bind_eq_ok_iff.1 found
    obtain ⟨-, same⟩ := Prod.mk.inj (Except.ok.inj found)
    obtain ⟨rfl, -⟩ := Prod.mk.inj same
    exact h.elem
  · cases found
  · cases found

/-- The payload of the variant that a program goes to. -/
theorem of_variantAt {e : EnumTy} (h : (Ty.enum e).All P) {d : Int} {v : Variant}
    (found : e.variantAt d = .ok v) : v.ty.All P := by
  obtain ⟨n, -, found⟩ := elementAt_eq_ok_iff.1 found
  exact h.payload (List.mem_of_getElem? found)

/-- A type without parts. -/
theorem of_parts_eq_nil {ty : Ty} (none : ty.parts = []) (here : P ty) : ty.All P :=
  intro here fun t ht => by
    rw [none] at ht
    cases ht

end All

/-! ## Regular types -/

/-- The numbers that the decision tree of an enum may end with are values of its discriminant
type. -/
def DiscriminantsFit (target : Target) : Ty → Prop
  | .enum e => ∀ d, e.discriminator.Leaf d → e.discriminantTy.wellFormed target (.int d) = .ok true
  | _ => True

/-- A type whose sizes and counts are what they have to be, and whose discriminants fit. -/
structure Regular (target : Target) (t : Ty) : Prop where
  int_sized : t.IntSized
  counted : t.Counted
  chunks_sized : t.ChunksSized
  chunks_inside : t.ChunksInside
  discriminants_fit : t.DiscriminantsFit target

variable {target : Target}

theorem regular_bool : Ty.bool.Regular target :=
  ⟨trivial, trivial, trivial, trivial, trivial⟩

theorem regular_ptr {t : PtrTy} : (Ty.ptr t).Regular target :=
  ⟨trivial, trivial, trivial, trivial, trivial⟩

theorem regular_int_iff {t : IntTy} : (Ty.int t).Regular target ↔ 1 ≤ t.size :=
  ⟨Regular.int_sized, fun sized => ⟨sized, trivial, trivial, trivial, trivial⟩⟩

theorem regular_tuple {fields : List Field} {size : Int} : (Ty.tuple fields size).Regular target :=
  ⟨trivial, trivial, trivial, trivial, trivial⟩

theorem all_regular_bool : Ty.bool.All (Regular target) :=
  .of_parts_eq_nil rfl regular_bool

theorem all_regular_ptr {t : PtrTy} : (Ty.ptr t).All (Regular target) :=
  .of_parts_eq_nil rfl regular_ptr

theorem all_regular_int {t : IntTy} (sized : 1 ≤ t.size) : (Ty.int t).All (Regular target) :=
  .of_parts_eq_nil rfl (regular_int_iff.2 sized)

end Ty

end AbstractMachine
