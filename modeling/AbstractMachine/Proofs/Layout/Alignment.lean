/-
# AbstractMachine.Proofs.Layout.Alignment — powers of two, and multiples of an alignment

An alignment of a place is a power of two, and what is left of it some bytes further on is one again,
which divides both the alignment and the distance (`powerOfTwo_restrictAlign`). It is never less than
what a part needs that stands at a multiple of its own alignment (`le_restrictAlign`).

To round up needs an alignment that is not zero, and finds a multiple of it.
-/
import Mathlib.Data.Nat.Prime.Basic
import Mathlib.Order.MinMax
import AbstractMachine.Layout
import AbstractMachine.Proofs.Codec

namespace AbstractMachine

/-! ## Powers of two -/

/-- A number that may be an alignment. -/
def PowerOfTwo (n : Int) : Prop := ∃ k : Nat, n = (1 : Int) <<< k

theorem PowerOfTwo.one_le {n : Int} (h : PowerOfTwo n) : 1 ≤ n := by
  obtain ⟨k, rfl⟩ := h
  exact one_shiftLeft_pos k

theorem PowerOfTwo.ne_zero {n : Int} (h : PowerOfTwo n) : n ≠ 0 := by
  have positive := h.one_le
  omega

theorem powerOfTwo_one : PowerOfTwo 1 := ⟨0, rfl⟩

theorem powerOfTwo_natCast_iff {n : Nat} : PowerOfTwo n ↔ ∃ k : Nat, n = 2 ^ k := by
  refine exists_congr fun k => ?_
  rw [Int.shiftLeft_eq, Int.one_mul]
  exact_mod_cast Iff.rfl

/-- The lowest bit of a number is a power of two, and divides the number. -/
theorem powerOfTwo_lowBit (n : Nat) : PowerOfTwo (lowBit n) := by
  have divides : lowBit n ∣ 2 ^ n.log2 := by
    rw [← Nat.one_shiftLeft]
    exact Nat.gcd_dvd_right _ _
  obtain ⟨k, -, same⟩ := (Nat.dvd_prime_pow Nat.prime_two).1 divides
  exact powerOfTwo_natCast_iff.2 ⟨k, same⟩

theorem lowBit_dvd (n : Nat) : lowBit n ∣ n :=
  Nat.gcd_dvd_left _ _

/-- Of two powers of two the smaller one divides the larger one. -/
theorem PowerOfTwo.dvd_of_le {m n : Int} (hm : PowerOfTwo m) (hn : PowerOfTwo n) (le : m ≤ n) :
    m ∣ n := by
  obtain ⟨j, rfl⟩ := hm
  obtain ⟨k, rfl⟩ := hn
  simp only [Int.shiftLeft_eq, Int.one_mul] at le ⊢
  have le : 2 ^ j ≤ 2 ^ k := by exact_mod_cast le
  exact pow_dvd_pow 2 ((Nat.pow_le_pow_iff_right (by decide)).1 le)

/-- The alignment that is left some bytes into a place is a power of two, and divides both the
alignment of the place and the distance. -/
theorem powerOfTwo_restrictAlign {align : Int} (h : PowerOfTwo align) (offset : Int) :
    PowerOfTwo (restrictAlign align offset) ∧ restrictAlign align offset ∣ align ∧
      restrictAlign align offset ∣ offset := by
  unfold restrictAlign
  have bit := powerOfTwo_lowBit offset.natAbs
  have divides : (lowBit offset.natAbs : Int) ∣ offset :=
    Int.ofNat_dvd_left.2 (lowBit_dvd offset.natAbs)
  split
  · next zero => exact ⟨h, dvd_refl _, zero ▸ Int.dvd_zero _⟩
  · rcases le_total align (lowBit offset.natAbs) with le | le
    · rw [min_eq_left le]
      exact ⟨h, dvd_refl _, (h.dvd_of_le bit le).trans divides⟩
    · rw [min_eq_right le]
      exact ⟨bit, bit.dvd_of_le h le, divides⟩

/-- What a power of two divides has no lower bit. -/
theorem le_lowBit {part : Int} (power : PowerOfTwo part) {n : Nat} (positive : n ≠ 0)
    (dvd : part ∣ n) : part ≤ lowBit n := by
  obtain ⟨part, rfl⟩ := Int.eq_ofNat_of_zero_le (Int.le_trans (by decide) power.one_le)
  obtain ⟨k, rfl⟩ := powerOfTwo_natCast_iff.1 power
  have dvd : 2 ^ k ∣ n := Int.natCast_dvd_natCast.1 dvd
  have below : k ≤ n.log2 := (Nat.le_log2 positive).2 (Nat.le_of_dvd (by omega) dvd)
  have divides : 2 ^ k ∣ lowBit n := by
    rw [lowBit, Nat.one_shiftLeft]
    exact Nat.dvd_gcd dvd (pow_dvd_pow 2 below)
  have positive : 0 < lowBit n := Nat.gcd_pos_of_pos_left _ (by omega)
  exact Int.ofNat_le.2 (Nat.le_of_dvd positive divides)

/-- A part that stands at a multiple of its alignment keeps it, in a place of no smaller one. -/
theorem le_restrictAlign {part align offset : Int} (power : PowerOfTwo part) (le : part ≤ align)
    (dvd : part ∣ offset) : part ≤ restrictAlign align offset := by
  unfold restrictAlign
  split
  · exact le
  · next nonzero =>
      exact le_min le (le_lowBit power (by omega) (Int.dvd_natAbs.2 dvd))

/-! ## Rounding up -/

section Rounding

variable {n align r : Int}

theorem exists_roundUp (n : Int) (nonzero : align ≠ 0) : ∃ r, roundUp n align = .ok r :=
  ⟨_, if_neg nonzero⟩

/-- What a number is rounded up to is a multiple, and no less than the number. -/
theorem roundUp_bounds (nonneg : 0 ≤ align) (h : roundUp n align = .ok r) :
    1 ≤ align ∧ align ∣ r ∧ n ≤ r := by
  unfold roundUp at h
  split at h
  · cases h
  · next nonzero =>
      obtain rfl := Except.ok.inj h
      refine ⟨by omega, Dvd.intro_left _ rfl, ?_⟩
      have below := Int.mul_ediv_self_le (x := -n) nonzero
      rw [Int.fdiv_eq_ediv_of_nonneg _ nonneg, Int.neg_mul, Int.mul_comm]
      omega

end Rounding

/-! ## The largest of some alignments -/

section Largest

theorem largestAlign_cons_cons (a b : Int) (as : List Int) :
    largestAlign (a :: b :: as) = largestAlign (max a b :: as) :=
  rfl

theorem le_largestAlign {as : List Int} {a : Int} (h : a ∈ as) : a ≤ largestAlign as := by
  match as, h with
  | [b], h => exact Int.le_of_eq (List.mem_singleton.1 h)
  | b :: c :: rest, h =>
      rw [largestAlign_cons_cons]
      have first : max b c ≤ largestAlign (max b c :: rest) := le_largestAlign List.mem_cons_self
      rcases List.mem_cons.1 h with rfl | h
      · exact (le_max_left _ _).trans first
      rcases List.mem_cons.1 h with rfl | h
      · exact (le_max_right _ _).trans first
      · exact le_largestAlign (List.mem_cons_of_mem _ h)
termination_by as.length

/-- What holds of one and of all the alignments holds of the largest of them. -/
theorem largestAlign_of_forall {P : Int → Prop} {as : List Int} (one : P 1) (all : ∀ a ∈ as, P a) :
    P (largestAlign as) := by
  match as, all with
  | [], _ => exact one
  | [a], all => exact all a List.mem_cons_self
  | a :: b :: rest, all =>
      rw [largestAlign_cons_cons]
      obtain ⟨first, second, rest⟩ : P a ∧ P b ∧ ∀ c ∈ rest, P c := by
        simpa only [List.forall_mem_cons] using all
      refine largestAlign_of_forall one (List.forall_mem_cons.2 ⟨?_, rest⟩)
      rcases max_choice a b with same | same
      · rw [same]
        exact first
      · rw [same]
        exact second
termination_by as.length

/-- One is in the way of no alignments of at least one. -/
theorem largestAlign_one_cons {as : List Int} (positive : ∀ a ∈ as, 1 ≤ a) :
    largestAlign (1 :: as) = largestAlign as := by
  apply Int.le_antisymm
  · have one : 1 ≤ largestAlign as := largestAlign_of_forall (P := (1 ≤ ·)) (Int.le_refl 1) positive
    exact largestAlign_of_forall (P := (· ≤ largestAlign as)) one
      (List.forall_mem_cons.2 ⟨one, fun a h => le_largestAlign h⟩)
  · exact largestAlign_of_forall (P := (· ≤ largestAlign (1 :: as)))
      (le_largestAlign List.mem_cons_self) fun a h => le_largestAlign (List.mem_cons_of_mem 1 h)

end Largest

/-! ## Natural alignments -/

variable {target : Target}

theorem fieldAligns_eq (fields : List Field) :
    fieldAligns target fields = fields.map (·.ty.naturalAlign target) := by
  induction fields with
  | nil => rfl
  | cons f fields ih =>
      obtain ⟨offset, ty⟩ := f
      rw [fieldAligns, ih, List.map_cons]

theorem variantAligns_eq (variants : List Variant) :
    variantAligns target variants =
      variants.flatMap fun v => v.ty.naturalAlign target :: v.tagger.map (·.ty.size) := by
  induction variants with
  | nil => rfl
  | cons v variants ih =>
      obtain ⟨ty, tagger⟩ := v
      rw [variantAligns, ih, List.flatMap_cons]

namespace Ty

theorem naturalAlign_tuple (fields : List Field) (size : Int) :
    (Ty.tuple fields size).naturalAlign target =
      largestAlign (fields.map (·.ty.naturalAlign target)) := by
  rw [naturalAlign, fieldAligns_eq]

theorem naturalAlign_union (u : UnionTy) :
    (Ty.union u).naturalAlign target = largestAlign (u.fields.map (·.ty.naturalAlign target)) := by
  obtain ⟨fields, chunks, size⟩ := u
  rw [naturalAlign, fieldAligns_eq]

theorem naturalAlign_enum (e : EnumTy) :
    (Ty.enum e).naturalAlign target = largestAlign (e.variants.flatMap fun v =>
      v.ty.naturalAlign target :: v.tagger.map (·.ty.size)) := by
  obtain ⟨variants, discriminator, discriminantTy, size⟩ := e
  rw [naturalAlign, variantAligns_eq]

/-- An enum is no less aligned than its payloads and its tags. -/
theorem le_naturalAlign_enum (target : Target) {e : EnumTy} {v : Variant} (hv : v ∈ e.variants) :
    v.ty.naturalAlign target ≤ (Ty.enum e).naturalAlign target ∧
      ∀ w ∈ v.tagger, w.ty.size ≤ (Ty.enum e).naturalAlign target := by
  rw [naturalAlign_enum]
  constructor
  · exact le_largestAlign (List.mem_flatMap.2 ⟨v, hv, List.mem_cons_self⟩)
  · intro w hw
    exact le_largestAlign
      (List.mem_flatMap.2 ⟨v, hv, List.mem_cons_of_mem _ (List.mem_map_of_mem hw)⟩)

/-- A type can be part of another one: it has a number of bytes, and an alignment. -/
def Measured (target : Target) (ty : Ty) : Prop :=
  0 ≤ ty.naturalAlign target ∧ 0 ≤ ty.byteSize target

theorem largestAlign_nonneg {tys : List Ty} (measured : ∀ t ∈ tys, t.Measured target) :
    0 ≤ largestAlign (tys.map (naturalAlign target)) :=
  largestAlign_of_forall (P := (0 ≤ ·)) Int.one_nonneg
    (List.forall_mem_map.2 fun t ht => (measured t ht).1)

end Ty

end AbstractMachine
