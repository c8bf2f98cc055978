/-
# AbstractMachine.Proofs.Representation.Order — definedness is a partial order

Names of allocations are unrelated, and no name is below each of them. Initialised bytes with the same
bits are ordered like their provenance, and uninitialised ones are below them. Everything above that is
compared piece by piece: byte lists, chunks, the components of a value. So the laws of an order go up
from pieces to what is made of them, by induction on the left value. Its former fixes the former of the
right one, in both directions.

The order leaves open the bytes of chunks and the provenance of pointers, and nothing else. The test
for well-formedness looks at neither, so it says the same of ordered values, at every type
(`Value.fitAlike_of_le`). That includes the types at which it fails.
-/
import Mathlib.Order.Defs.Unbundled
import AbstractMachine.Proofs.Representation.Monotone

namespace AbstractMachine

open AbsByte

/-! ## Related lists -/

/-- Two relations between lists, one after the other. -/
theorem forall₂_trans {α β γ : Type} {R : α → β → Prop} {S : β → γ → Prop} {T : α → γ → Prop}
    {xs : List α} {ys : List β} {zs : List γ} (h : List.Forall₂ R xs ys)
    (k : List.Forall₂ S ys zs) (step : ∀ x ∈ xs, ∀ y z, R x y → S y z → T x z) :
    List.Forall₂ T xs zs := by
  induction h generalizing zs with
  | nil =>
      cases k
      exact .nil
  | @cons x y xs ys head _ ih =>
      obtain _ | ⟨next, k⟩ := k
      refine .cons (step x List.mem_cons_self y _ head next) ?_
      exact ih k fun x' hx => step x' (List.mem_cons_of_mem x hx)

/-- Lists that are related in both directions are equal, if their elements are. -/
theorem forall₂_antisymm {α : Type} {R : α → α → Prop} {xs ys : List α} (h : List.Forall₂ R xs ys)
    (k : List.Forall₂ R ys xs) (step : ∀ x ∈ xs, ∀ y, R x y → R y x → x = y) : xs = ys := by
  induction h with
  | nil => rfl
  | @cons x y xs ys head _ ih =>
      obtain _ | ⟨back, k⟩ := k
      have first := step x List.mem_cons_self y head back
      have rest := ih k fun x' hx => step x' (List.mem_cons_of_mem x hx)
      rw [first, rest]

/-! ## Bytes -/

theorem provenanceLe_antisymm {p q : Option AllocId} (h : provenanceLe p q = true)
    (k : provenanceLe q p = true) : p = q := by
  rw [provenanceLe_iff] at h k
  rcases h with rfl | same
  · rcases k with none | same
    · exact none.symm
    · exact same.symm
  · exact same

namespace AbsByte

theorem le_antisymm {x y : AbsByte} (h : le x y = true) (k : le y x = true) : x = y := by
  cases x with
  | uninit =>
      cases y with
      | uninit => rfl
      | init b q => cases k
  | init a p =>
      cases y with
      | uninit => cases h
      | init b q =>
          simp only [le, Bool.and_eq_true, beq_iff_eq] at h k
          rw [h.1, provenanceLe_antisymm h.2 k.2]

theorem leAll_antisymm {xs ys : List AbsByte} (h : leAll xs ys = true)
    (k : leAll ys xs = true) : xs = ys := by
  rw [leAll_iff_forall₂] at h k
  exact forall₂_antisymm h k fun _ _ _ => le_antisymm

theorem isPartialOrder_le : IsPartialOrder AbsByte fun x y => le x y = true where
  refl := le_refl
  trans _ _ _ := le_trans
  antisymm _ _ := le_antisymm

theorem isPartialOrder_leAll : IsPartialOrder (List AbsByte) fun xs ys => leAll xs ys = true where
  refl := leAll_refl
  trans _ _ _ := leAll_trans
  antisymm _ _ := leAll_antisymm

end AbsByte

/-! ## Values -/

namespace Value

/-- What is below something is below all that is above it. -/
theorem le_trans {u v w : Value} (h : u.le v = true) (k : v.le w = true) : u.le w = true := by
  induction u using Value.induction generalizing v w with
  | int n =>
      obtain rfl := int_le_iff.1 h
      exact k
  | bool b =>
      obtain rfl := bool_le_iff.1 h
      exact k
  | ptr p =>
      obtain ⟨q, rfl, same, below⟩ := ptr_le_iff.1 h
      obtain ⟨r, rfl, same', below'⟩ := ptr_le_iff.1 k
      exact ptr_le_iff.2 ⟨r, rfl, same.trans same', provenanceLe_trans below below'⟩
  | tuple us ih =>
      obtain ⟨vs, rfl, below⟩ := tuple_le_iff.1 h
      obtain ⟨ws, rfl, below'⟩ := tuple_le_iff.1 k
      exact tuple_le_iff.2 ⟨ws, rfl, forall₂_trans below below' fun u hu _ _ => ih u hu⟩
  | union cs =>
      obtain ⟨ds, rfl, below⟩ := union_le_iff.1 h
      obtain ⟨es, rfl, below'⟩ := union_le_iff.1 k
      exact union_le_iff.2 ⟨es, rfl, forall₂_trans below below' fun _ _ _ _ => leAll_trans⟩
  | variant d u ih =>
      obtain ⟨v, rfl, below⟩ := variant_le_iff.1 h
      obtain ⟨w, rfl, below'⟩ := variant_le_iff.1 k
      exact variant_le_iff.2 ⟨w, rfl, ih below below'⟩

theorem le_antisymm {v w : Value} (h : v.le w = true) (k : w.le v = true) : v = w := by
  induction v using Value.induction generalizing w with
  | int n => exact (int_le_iff.1 h).symm
  | bool b => exact (bool_le_iff.1 h).symm
  | ptr p =>
      obtain ⟨q, rfl, same, below⟩ := ptr_le_iff.1 h
      obtain ⟨_, ⟨⟩, -, above⟩ := ptr_le_iff.1 k
      show ptr ⟨p.addr, p.provenance⟩ = ptr ⟨q.addr, q.provenance⟩
      rw [same, provenanceLe_antisymm below above]
  | tuple vs ih =>
      obtain ⟨ws, rfl, below⟩ := tuple_le_iff.1 h
      obtain ⟨_, ⟨⟩, above⟩ := tuple_le_iff.1 k
      rw [forall₂_antisymm below above fun v hv _ => ih v hv]
  | union cs =>
      obtain ⟨ds, rfl, below⟩ := union_le_iff.1 h
      obtain ⟨_, ⟨⟩, above⟩ := union_le_iff.1 k
      rw [forall₂_antisymm below above fun _ _ _ => leAll_antisymm]
  | variant d v ih =>
      obtain ⟨w, rfl, below⟩ := variant_le_iff.1 h
      obtain ⟨_, ⟨⟩, above⟩ := variant_le_iff.1 k
      rw [ih below above]

theorem isPartialOrder_le : IsPartialOrder Value fun v w => v.le w = true where
  refl := le_refl
  trans _ _ _ := le_trans
  antisymm _ _ := le_antisymm

/-- An absent value is below all others, and what is present is compared as it was. -/
theorem isPartialOrder_optionLe :
    IsPartialOrder (Option Value) fun o p => optionLe o p = true where
  refl o := by
    cases o with
    | none => rfl
    | some v => exact le_refl v
  trans o p q h k := by
    cases o with
    | none => rfl
    | some u =>
        cases p with
        | none => cases h
        | some v =>
            cases q with
            | none => cases k
            | some w => exact le_trans h k
  antisymm o p h k := by
    cases o with
    | none =>
        cases p with
        | none => rfl
        | some w => cases k
    | some v =>
        cases p with
        | none => cases h
        | some w => exact congrArg some (le_antisymm h k)

end Value

/-! ## Well-formedness -/

section WellFormed

variable {target : Target} {v w : Value} {vs ws : List Value}

theorem allOk_congr {α : Type} {test : α → Except Fault Bool} {xs ys : List α}
    (h : List.Forall₂ (fun x y => test x = test y) xs ys) : allOk test xs = allOk test ys := by
  induction h with
  | nil => rfl
  | cons head _ ih => rw [allOk, allOk, head, ih]

theorem chunksFit_congr (cs : List Chunk) {bss css : List (List AbsByte)}
    (h : List.Forall₂ (fun bs cs => leAll bs cs = true) bss css) :
    chunksFit cs bss = chunksFit cs css := by
  induction h generalizing cs with
  | nil => rfl
  | cons head _ ih =>
      cases cs with
      | nil => rfl
      | cons c cs => rw [chunksFit, chunksFit, length_eq_of_leAll head, ih]

/-- The test for well-formedness says the same of both values, whatever the type. -/
def Value.FitAlike (target : Target) (v w : Value) : Prop :=
  ∀ ty : Ty, ty.wellFormed target v = ty.wellFormed target w

theorem fieldsWellFormed_congr (fields : List Field)
    (h : List.Forall₂ (Value.FitAlike target) vs ws) :
    fieldsWellFormed target fields vs = fieldsWellFormed target fields ws := by
  induction h generalizing fields with
  | nil => rfl
  | cons head _ ih =>
      cases fields with
      | nil => rfl
      | cons f fields =>
          obtain ⟨offset, ty⟩ := f
          rw [fieldsWellFormed, fieldsWellFormed, head, ih]

theorem variantWellFormed_congr (variants : List Variant) (d : Int)
    (h : Value.FitAlike target v w) :
    variantWellFormed target variants d v = variantWellFormed target variants d w := by
  induction variants generalizing d with
  | nil => rfl
  | cons var variants ih =>
      obtain ⟨ty, tagger⟩ := var
      rw [variantWellFormed, variantWellFormed, h, ih]

/-- Ordered values are well-formed at the same types, and the test for it fails at the same types. -/
theorem Value.fitAlike_of_le (target : Target) (le : v.le w = true) : v.FitAlike target w := by
  -- At a type of another former the test looks at neither value.
  induction v using Value.induction generalizing w with
  | int n =>
      obtain rfl := int_le_iff.1 le
      exact fun _ => rfl
  | bool b =>
      obtain rfl := bool_le_iff.1 le
      exact fun _ => rfl
  | ptr p =>
      obtain ⟨q, rfl, same, -⟩ := ptr_le_iff.1 le
      intro ty
      cases ty with
      | ptr t => rw [Ty.wellFormed, Ty.wellFormed, same]
      | enum e =>
          cases e
          rfl
      | _ => rfl
  | tuple vs ih =>
      obtain ⟨ws, rfl, elems⟩ := tuple_le_iff.1 le
      have alike : List.Forall₂ (FitAlike target) vs ws :=
        (forall₂_mem elems).imp fun v w h => ih v h.1 h.2
      intro ty
      cases ty with
      | tuple fields size =>
          rw [Ty.wellFormed, Ty.wellFormed, elems.length_eq, fieldsWellFormed_congr fields alike]
      | array elem count =>
          have each := allOk_congr (alike.imp fun _ _ same => same elem)
          rw [Ty.wellFormed, Ty.wellFormed, elems.length_eq, each]
      | enum e =>
          cases e
          rfl
      | _ => rfl
  | union cs =>
      obtain ⟨ds, rfl, chunks⟩ := union_le_iff.1 le
      intro ty
      cases ty with
      | union u => rw [Ty.wellFormed, Ty.wellFormed, chunksFit_congr u.chunks chunks]
      | enum e =>
          cases e
          rfl
      | _ => rfl
  | variant d v ih =>
      obtain ⟨w, rfl, below⟩ := variant_le_iff.1 le
      intro ty
      cases ty with
      | enum e =>
          obtain ⟨variants, _, _, _⟩ := e
          rw [Ty.wellFormed, Ty.wellFormed, variantWellFormed_congr variants d (ih below)]
      | _ => rfl

end WellFormed

/-- Definedness is a partial order on bytes, byte lists, values and values that may be absent. The test
for well-formedness has the same outcome on ordered values, at every type and for every target; if it
has none on one of them, since the type has no range, say, it fails in the same way on the other. -/
theorem Value.definedness_ordered :
    IsPartialOrder AbsByte (fun x y => x.le y = true) ∧
    IsPartialOrder (List AbsByte) (fun xs ys => leAll xs ys = true) ∧
    IsPartialOrder Value (fun v w => v.le w = true) ∧
    IsPartialOrder (Option Value) (fun o p => optionLe o p = true) ∧
    ∀ v w : Value, v.le w = true → ∀ (target : Target) (ty : Ty),
      ty.wellFormed target v = ty.wellFormed target w :=
  ⟨AbsByte.isPartialOrder_le, isPartialOrder_leAll, isPartialOrder_le, isPartialOrder_optionLe,
    fun _ _ le target => fitAlike_of_le target le⟩

/-- A chunk and a reference without provenance are below the same with one, inside a tuple inside a
variant. Both values are well-formed where the reference is to aligned memory, and the test divides by
zero for both of them where the alignment is zero. -/
theorem Value.definedness_chunkAndReference :
    let ty (align : Int) : Ty := .enum
      ⟨[⟨.tuple [⟨0, .union ⟨[], [⟨0, 2⟩], 2⟩⟩, ⟨8, .ptr (.ref false { size := 4, align })⟩] 16, []⟩],
        .known 0, .int (.isize .standard), 16⟩
    let v : Value := .variant 0 (.tuple [.union [[.init 7 none, .uninit]], .ptr ⟨4096, none⟩])
    let w : Value := .variant 0
      (.tuple [.union [[.init 7 (some ⟨3⟩), .init 0 none]], .ptr ⟨4096, some ⟨3⟩⟩])
    v.le w = true ∧ w.le v = false ∧ (ty 4).wellFormed .standard w = .ok true ∧
      (ty 0).wellFormed .standard w = .error (.arithmetic .divisionByZero) := by
  intro ty v w
  obtain ⟨-, -, -, -, alike⟩ := definedness_ordered
  have below : v.le w = true := rfl
  exact ⟨below, rfl, (alike v w below .standard (ty 4)).symm, (alike v w below .standard (ty 0)).symm⟩

end AbstractMachine
