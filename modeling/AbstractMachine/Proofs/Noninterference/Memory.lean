/-
# AbstractMachine.Proofs.Noninterference.Memory — memories that differ in addresses

Two memories are twins if they hold the same allocations at different addresses. Where the
allocations lie in both is a list of *sites*, which grows at its end as allocations are made and
never changes otherwise. Pointers are twins if they lie equally far from the start of one site, and
equally well aligned; that they are inside their site is part of it, and so is how many bytes from
them on are.

An access through twin pointers is judged alike in twin memories, since all that is compared is the
distance from the start of an allocation. And moving them inside their site never meets the end of
the address space, because allocations do not reach it.
-/
import Mathlib.Data.Option.Basic
import AbstractMachine.Proofs.Layout.Alignment
import AbstractMachine.Proofs.Memory.Allocator

namespace AbstractMachine

variable {α β γ δ ρ : Type}

/-! ## Answers that agree -/

/-- Two answers are the same fault, or related. -/
inductive Agrees (V : α → β → Prop) : Except Fault α → Except Fault β → Prop
  | ok {a : α} {b : β} (h : V a b) : Agrees V (.ok a) (.ok b)
  | error (e : Fault) : Agrees V (.error e) (.error e)

namespace Agrees

variable {V V' : α → β → Prop} {U : γ → δ → Prop} {x : Except Fault α} {y : Except Fault β}

theorem mono (h : Agrees V x y) (sub : ∀ a b, V a b → V' a b) : Agrees V' x y := by
  cases h with
  | ok h => exact .ok (sub _ _ h)
  | error e => exact .error e

theorem refl {V : α → α → Prop} {x : Except Fault α} (h : ∀ a, x = .ok a → V a a) :
    Agrees V x x := by
  cases x with
  | ok a => exact .ok (h a rfl)
  | error e => exact .error e

theorem bind {f : α → Except Fault γ} {g : β → Except Fault δ} (hx : Agrees V x y)
    (hf : ∀ a b, V a b → Agrees U (f a) (g b)) : Agrees U (x >>= f) (y >>= g) := by
  cases hx with
  | ok h => exact hf _ _ h
  | error e => exact .error e

/-- What both have in common is done once. -/
theorem bindSame {z : Except Fault ρ} {f : ρ → Except Fault γ} {g : ρ → Except Fault δ}
    (hf : ∀ r, z = .ok r → Agrees U (f r) (g r)) : Agrees U (z >>= f) (z >>= g) := by
  cases z with
  | ok r => exact hf r rfl
  | error e => exact .error e

theorem ok_or_error (h : Agrees V x y) :
    (∃ a b, x = .ok a ∧ y = .ok b ∧ V a b) ∨ ∃ e, x = .error e ∧ y = .error e := by
  cases h with
  | ok h => exact .inl ⟨_, _, rfl, rfl, h⟩
  | error e => exact .inr ⟨e, rfl, rfl⟩

end Agrees

/-! ## Sites and pointers -/

/-- Where an allocation lies in each of two memories, and its size. -/
structure Site where
  left : Int
  right : Int
  size : Int

/-- The same allocation lies at a site in both memories. -/
structure Site.Holds (w : Site) (a b : Allocation) : Prop where
  left : a.addr = w.left
  right : b.addr = w.right
  size : a.size = w.size
  same : b = { a with addr := b.addr }

namespace Site.Holds

variable {w : Site} {a b : Allocation} (h : w.Holds a b)

include h

theorem contents : b.contents = a.contents := by
  rw [h.same]

theorem live : b.live = a.live := by
  rw [h.same]

theorem kind : b.kind = a.kind := by
  rw [h.same]

theorem align : b.align = a.align := by
  rw [h.same]

theorem size_eq : b.size = a.size := by
  rw [Allocation.size, h.contents, Allocation.size]

end Site.Holds

/-- Two pointers lie equally far from the start of a site, inside of it and equally well aligned,
and so many bytes from there on the site does not end. -/
inductive Pointer.Twin (W : List Site) (size align : Int) : Pointer → Pointer → Prop
  | intro {k : Nat} {w : Site} {o : Int} (found : W[k]? = some w) (start : 0 ≤ o ∧ o ≤ w.size)
      (stop : 0 ≤ o + size ∧ o + size ≤ w.size) (power : PowerOfTwo align)
      (left : align ∣ w.left + o) (right : align ∣ w.right + o) :
      Twin W size align ⟨w.left + o, some ⟨k⟩⟩ ⟨w.right + o, some ⟨k⟩⟩

theorem getElem?_mono {W W' : List Site} (le : W <+: W') {k : Nat} {w : Site}
    (found : W[k]? = some w) : W'[k]? = some w := by
  obtain ⟨t, rfl⟩ := le
  rw [List.getElem?_append_left (List.getElem?_eq_some_iff.1 found).1, found]

/-- With one more site there is a site at a number if there was one before, or if it is the new
one. -/
theorem old_or_new {W : List Site} {w v : Site} {k : Nat} (found : (W ++ [w])[k]? = some v) :
    k < W.length ∧ W[k]? = some v ∨ k = W.length ∧ v = w := by
  by_cases old : k < W.length
  · exact .inl ⟨old, List.getElem?_append_left old ▸ found⟩
  · have bound := (List.getElem?_eq_some_iff.1 found).1
    rw [List.length_append, List.length_singleton] at bound
    obtain rfl : k = W.length := by omega
    exact .inr ⟨rfl, Option.some.inj (found.symm.trans List.getElem?_concat_length)⟩

/-- More allocations leave pointers where they are. -/
theorem Pointer.Twin.mono {W W' : List Site} {size align : Int} {p q : Pointer}
    (h : p.Twin W size align q) (le : W <+: W') : p.Twin W' size align q := by
  obtain ⟨found, start, stop, power, left, right⟩ := h
  exact ⟨getElem?_mono le found, start, stop, power, left, right⟩

theorem Pointer.Twin.powerOfTwo {W : List Site} {size align : Int} {p q : Pointer}
    (h : p.Twin W size align q) : PowerOfTwo align := by
  obtain ⟨-, -, -, power, -, -⟩ := h
  exact power

/-- A distance lies between the two ends of a range that begins at zero. -/
def Between (total d : Int) : Prop :=
  0 ≤ d ∧ d ≤ total ∨ total ≤ d ∧ d ≤ 0

/-- An element of an array lies between its ends, even if elements have a negative size. -/
theorem between_of_index {n count size : Int} (start : 0 ≤ n) (stop : n ≤ count) :
    Between (size * count) (n * size) := by
  have rest : size * count = n * size + (count - n) * size := by
    rw [← Int.add_mul, Int.mul_comm]
    congr 1
    omega
  rcases le_total 0 size with positive | negative
  · have before := Int.mul_nonneg start positive
    have after := Int.mul_nonneg (show 0 ≤ count - n by omega) positive
    exact .inl ⟨before, by omega⟩
  · have before := Int.mul_nonpos_of_nonneg_of_nonpos start negative
    have after := Int.mul_nonpos_of_nonneg_of_nonpos (show 0 ≤ count - n by omega) negative
    exact .inr ⟨by omega, before⟩

namespace Memory

/-! ## Twin memories -/

/-- Two memories of the same target hold the same allocations, each at its site. -/
structure Twins (target : Target) (W : List Site) (m n : Memory) : Prop where
  left_target : m.target = target
  right_target : n.target = target
  left : m.Laid
  right : n.Laid
  left_length : m.allocations.length = W.length
  right_length : n.allocations.length = W.length
  hosts : ∀ (k : Nat) (w : Site), W[k]? = some w →
    ∃ a b, m.allocations[k]? = some a ∧ n.allocations[k]? = some b ∧ w.Holds a b

variable {target : Target} {W : List Site} {m n m' n' : Memory} {p q : Pointer}
  {total size align : Int} {kind : AllocKind} {a b : Allocation} {k : Nat} {w : Site}

namespace Twins

theorem target_eq (h : m.Twins target W n) : n.target = m.target :=
  h.right_target.trans h.left_target.symm

/-- Both memories change what lies at one site. -/
theorem modify (h : m.Twins target W n) {f g : Allocation → Allocation}
    (step : ∀ w a b, W[k]? = some w → m.allocations[k]? = some a → n.allocations[k]? = some b →
      w.Holds a b → w.Holds (f a) (g b))
    (left : (m.modify ⟨k⟩ f).Laid) (right : (n.modify ⟨k⟩ g).Laid) :
    (m.modify ⟨k⟩ f).Twins target W (n.modify ⟨k⟩ g) where
  left_target := h.left_target
  right_target := h.right_target
  left := left
  right := right
  left_length := (length_allocations_modify m ⟨k⟩ f).trans h.left_length
  right_length := (length_allocations_modify n ⟨k⟩ g).trans h.right_length
  hosts l w found := by
    obtain ⟨a, b, ha, hb, holds⟩ := h.hosts l w found
    rw [allocations_modify, allocations_modify, ha, hb]
    by_cases same : k = l
    · subst same
      simp only [Int.toNat_natCast, if_true]
      exact ⟨f a, g b, rfl, rfl, step w a b found ha hb holds⟩
    · simp only [Int.toNat_natCast, if_neg same]
      exact ⟨a, b, rfl, rfl, holds⟩

end Twins

/-! ## Accesses -/

/-- An access at a distance from the start of an allocation is judged by the distance. -/
theorem checkPtr_at (laid : m.Laid) (found : m.allocations[k]? = some a) {o : Int} (start : 0 ≤ o)
    (power : PowerOfTwo align) (aligned : align ∣ a.addr + o) :
    m.checkPtr ⟨a.addr + o, some ⟨k⟩⟩ size align =
      if size = 0 then .ok none else do
        require a.live (.undefined .deadAccess)
        require (decide (o + size ≤ a.size)) (.undefined .outOfBounds)
        return some a := by
  have positive := (laid.placed a (List.mem_of_getElem? found)).positive
  have nonnull : (a.addr + o != 0) = true := by
    rw [bne_iff_ne]
    omega
  have inside : (decide (a.addr ≤ a.addr + o) && decide (a.addr + o + size ≤ a.stop)) =
      decide (o + size ≤ a.size) := by
    rw [Bool.eq_iff_iff, Bool.and_eq_true, decide_eq_true_eq, decide_eq_true_eq, decide_eq_true_eq,
      Allocation.stop]
    omega
  have multiple : ((a.addr + o) % align == 0) = true :=
    beq_iff_eq.2 (Int.emod_eq_zero_of_dvd aligned)
  have named : m.allocation ⟨k⟩ = .ok a := allocation_natCast.2 found
  rw [checkPtr, isAligned_of_ne_zero power.ne_zero, multiple]
  simp only [nonnull, inside, named, bind, Except.bind, require_true]
  rfl

/-- Accesses through two pointers hit the same allocation, at the same distance from its start. -/
structure HitAlike (W : List Site) (m n : Memory) (p q : Pointer) (size : Int) (a b : Allocation) :
    Prop where
  found : ∃ (k : Nat) (w : Site), W[k]? = some w ∧ m.allocations[k]? = some a ∧
    n.allocations[k]? = some b ∧ w.Holds a b
  distance : q.addr - b.addr = p.addr - a.addr
  start : 0 ≤ p.addr - a.addr
  stop : p.addr - a.addr + size ≤ a.size

namespace Twins

variable (h : m.Twins target W n)

include h

theorem checkPtr (twin : p.Twin W total align q) (size : Int) :
    Agrees (Option.Rel (HitAlike W m n p q size)) (m.checkPtr p size align)
      (n.checkPtr q size align) := by
  obtain ⟨found, start, -, power, left, right⟩ := twin
  rename_i k w o
  obtain ⟨a, b, ha, hb, holds⟩ := h.hosts k w found
  rw [← holds.left] at left ⊢
  rw [← holds.right] at right ⊢
  rw [checkPtr_at h.left ha start.1 power left, checkPtr_at h.right hb start.1 power right,
    holds.live, holds.size_eq]
  split
  · exact .ok .none
  · refine .bindSame fun _ _ => .bindSame fun _ inside => .ok (.some ?_)
    have inside := of_decide_eq_true (require_eq_ok_iff.1 inside)
    refine ⟨⟨k, w, found, ha, hb, holds⟩, ?_, ?_, ?_⟩
    · exact (add_sub_cancel_left b.addr o).trans (add_sub_cancel_left a.addr o).symm
    · rw [add_sub_cancel_left a.addr o]
      exact start.1
    · rw [add_sub_cancel_left a.addr o]
      exact inside

theorem dereferenceable (twin : p.Twin W total align q) (size : Int) :
    Agrees (fun _ _ => True) (m.dereferenceable p size align) (n.dereferenceable q size align) :=
  (h.checkPtr twin size).bind fun _ _ _ => .ok trivial

/-- Twin pointers point to the same bytes. -/
theorem load (twin : p.Twin W total align q) (size : Int) :
    Agrees (fun d e => e = d) (m.load p size align) (n.load q size align) := by
  refine (h.checkPtr twin size).bind fun a b related => ?_
  cases related with
  | none => exact .ok rfl
  | some hit =>
      obtain ⟨_, _, -, -, -, holds⟩ := hit.found
      refine .ok ?_
      rw [holds.contents, hit.distance]

theorem typedLoad (twin : p.Twin W total align q) (ty : Ty) :
    Agrees (fun v w => w = v ∧ ∃ data, ty.decode m.target data = .ok (some v))
      (m.typedLoad p ⟨ty, align⟩) (n.typedLoad q ⟨ty, align⟩) := by
  unfold Memory.typedLoad
  rw [h.target_eq]
  refine (h.load twin _).bind ?_
  rintro _ data rfl
  refine .bindSame fun o decoded => ?_
  cases o with
  | none => exact .error _
  | some v => exact .ok ⟨rfl, data, decoded⟩

/-- Bytes that are put through twin pointers are put to the same place. -/
theorem store (twin : p.Twin W total align q) (data : List AbsByte) :
    Agrees (Twins target W) (m.store p data align) (n.store q data align) := by
  obtain ⟨o, o', left, right, related⟩ | ⟨e, left, right⟩ :=
    (h.checkPtr twin data.length).ok_or_error
  · simp only [Memory.store, left, right, bind, Except.bind]
    cases related with
    | none => exact .ok h
    | @some a b hit =>
        obtain ⟨k, w, found, ha, hb, holds⟩ := hit.found
        -- That allocations stay in place is known of a store as an operation on memory.
        have laid := h.left.after (.store p data align)
        have laid' := h.right.after (.store q data align)
        simp only [Memory.after, Memory.store, left, right, bind, Except.bind, pure, Except.pure,
          Memory.orSame] at laid laid'
        show Agrees (Twins target W) (.ok _) (.ok _)
        rw [h.left.numbered k a ha] at laid ⊢
        rw [h.right.numbered k b hb] at laid' ⊢
        refine .ok (h.modify (fun w' a' b' found' ha' hb' holds' => ?_) laid laid')
        obtain rfl := Option.some.inj (ha.symm.trans ha')
        obtain rfl := Option.some.inj (hb.symm.trans hb')
        have length := Slice.length_overlay a.contents data hit.start hit.stop
        refine ⟨holds'.left, holds'.right, ?_, ?_⟩
        · rw [← holds'.size, Allocation.size, Allocation.size, length]
        · rw [holds.contents, hit.distance, holds.same]
  · simp only [Memory.store, left, right, bind, Except.bind]
    exact .error e

theorem typedStore (twin : p.Twin W total align q) (ty : Ty) (v : Value) :
    Agrees (Twins target W) (m.typedStore p v ⟨ty, align⟩) (n.typedStore q v ⟨ty, align⟩) := by
  unfold Memory.typedStore
  rw [h.target_eq]
  exact .bindSame fun _ _ => .bindSame fun _ _ => .bindSame fun data _ => h.store twin data

theorem deinit (twin : p.Twin W total align q) (ty : Ty) :
    Agrees (Twins target W) (m.deinit p ⟨ty, align⟩) (n.deinit q ⟨ty, align⟩) := by
  unfold Memory.deinit
  rw [h.target_eq]
  exact h.store twin _

/-- Pointers that are moved inside their site are twins again. -/
theorem offsetInBounds (twin : p.Twin W total align q) {d size' align' : Int}
    (start : Between total d) (stop : Between total (d + size')) (power : PowerOfTwo align')
    (dvd : align' ∣ align) (dvd' : align' ∣ d) :
    Agrees (fun p' q' => p'.Twin W size' align' q') (m.offsetInBounds p d)
      (n.offsetInBounds q d) := by
  obtain ⟨found, before, after, -, left, right⟩ := twin
  rename_i k w o
  obtain ⟨a, b, ha, hb, holds⟩ := h.hosts k w found
  have moved : 0 ≤ o + d ∧ o + d ≤ w.size ∧ 0 ≤ o + d + size' ∧ o + d + size' ≤ w.size := by
    unfold Between at start stop
    omega
  unfold Memory.offsetInBounds
  rw [h.target_eq]
  refine .bindSame fun _ _ => .bindSame fun _ _ => ?_
  -- The new address lies in the allocation, and allocations end below the limit of addresses.
  have inBounds {m : Memory} {a : Allocation} (laid : m.Laid) (ha : m.allocations[k]? = some a)
      (size : a.size = w.size) : m.target.addrInBounds (a.addr + o + d) = .ok true := by
    have placed := laid.placed a (List.mem_of_getElem? ha)
    have positive := placed.positive
    have below := placed.stop_lt_limit
    rw [Allocation.stop] at below
    rw [Target.addrInBounds_eq placed.one_le_ptrSize]
    exact congrArg Except.ok (decide_eq_true (by omega))
  have leftInBounds := inBounds h.left ha holds.size
  have rightInBounds := inBounds h.right hb (holds.size_eq.trans holds.size)
  rw [holds.left] at leftInBounds
  rw [holds.right, h.target_eq] at rightInBounds
  simp only [leftInBounds, rightInBounds]
  refine .bindSame fun _ _ => .bindSame fun _ _ => ?_
  have low (base : Int) : min (base + o) (base + o + d) = base + (o + min 0 d) := by omega
  have far (base : Int) :
      max (base + o) (base + o + d) - (base + (o + min 0 d)) = max 0 d - min 0 d := by omega
  simp only [low, far]
  have lowest : Pointer.Twin W 0 1 ⟨w.left + (o + min 0 d), some ⟨k⟩⟩
      ⟨w.right + (o + min 0 d), some ⟨k⟩⟩ :=
    .intro found (by omega) (by omega) powerOfTwo_one (one_dvd _) (one_dvd _)
  refine (h.dereferenceable lowest _).bind fun _ _ _ => .ok ?_
  rw [Int.add_assoc, Int.add_assoc]
  refine .intro found (by omega) (by omega) power ?_ ?_
  · rw [← Int.add_assoc]
    exact Int.dvd_add (dvd.trans left) dvd'
  · rw [← Int.add_assoc]
    exact Int.dvd_add (dvd.trans right) dvd'

/-- Freeing looks at distances and sizes, which are the same. -/
theorem deallocate (twin : p.Twin W total align' q) (size align : Int) (kind : AllocKind) :
    Agrees (Twins target W) (m.deallocate p size align kind) (n.deallocate q size align kind) := by
  have laid := h.left.after (.deallocate p size align kind)
  have laid' := h.right.after (.deallocate q size align kind)
  obtain ⟨found, -, -, -, -, -⟩ := twin
  rename_i k w o
  obtain ⟨a, b, ha, hb, holds⟩ := h.hosts k w found
  have start : (w.right + o == b.addr) = (w.left + o == a.addr) := by
    rw [holds.left, holds.right, Bool.eq_iff_iff, beq_iff_eq, beq_iff_eq]
    omega
  have named : m.allocation ⟨k⟩ = .ok a := allocation_natCast.2 ha
  have named' : n.allocation ⟨k⟩ = .ok b := allocation_natCast.2 hb
  -- The right answer is the left one, but for the memory that it leads to.
  have same : n.deallocate ⟨w.right + o, some ⟨k⟩⟩ size align kind =
      (fun _ => n.modify ⟨k⟩ fun a => { a with live := false }) <$>
        m.deallocate ⟨w.left + o, some ⟨k⟩⟩ size align kind := by
    have ok_bind {x : Allocation} {f : Allocation → Except Fault Memory} :
        (Except.ok x >>= f) = f x := rfl
    simp only [Memory.deallocate, named, named', ok_bind, holds.live, holds.kind, holds.size_eq,
      holds.align, start, map_bind, map_pure]
  cases freed : m.deallocate ⟨w.left + o, some ⟨k⟩⟩ size align kind with
  | error e =>
      rw [same, freed]
      exact .error e
  | ok m' =>
      rw [freed] at same
      rw [Memory.after, freed, Memory.orSame] at laid
      rw [Memory.after, same] at laid'
      obtain ⟨id, _, provenance, -, -, -, -, -, -, rfl⟩ := deallocate_eq_ok_iff.1 freed
      obtain rfl := Option.some.inj provenance
      rw [same]
      refine .ok (h.modify (fun w a b _ _ _ holds => ?_) laid laid')
      exact ⟨holds.left, holds.right, holds.size, by rw [holds.same]⟩

end Twins

/-! ## Allocation -/

/-- An answer to a question is an address that fits. -/
def Answers (c : AddressConstraints) (answer : Except Fault Int) : Prop :=
  ∃ addr, answer = .ok addr ∧ c.admits addr = .ok true

instance (c : AddressConstraints) (answer : Except Fault Int) : Decidable (Answers c answer) :=
  match answer with
  | .error _ => isFalse fun ⟨_, given, _⟩ => nomatch given
  | .ok addr =>
      match fits : c.admits addr with
      | .ok true => isTrue ⟨addr, rfl, fits⟩
      | .ok false => isFalse fun ⟨_, given, admitted⟩ => by
          cases given
          cases fits.symm.trans admitted
      | .error _ => isFalse fun ⟨_, given, admitted⟩ => by
          cases given
          cases fits.symm.trans admitted

/-- A chooser answers all these questions, the last one first. -/
def AllAnswered (chooser : Chooser) : List AddressConstraints → Prop
  | [] => True
  | c :: earlier => Answers c (chooser earlier c) ∧ AllAnswered chooser earlier

instance AllAnswered.decidable (chooser : Chooser) :
    (questions : List AddressConstraints) → Decidable (AllAnswered chooser questions)
  | [] => isTrue trivial
  | c :: earlier =>
      have := AllAnswered.decidable chooser earlier
      inferInstanceAs (Decidable (Answers c (chooser earlier c) ∧ AllAnswered chooser earlier))

/-- The chooser has not failed: it answered all that it was asked. -/
def Served (m : Memory) : Prop := AllAnswered m.chooser m.asked

instance (m : Memory) : Decidable m.Served :=
  inferInstanceAs (Decidable (AllAnswered m.chooser m.asked))

/-- Where an allocation fails although it may be made, the chooser is to blame. -/
theorem not_served_of_allocate {f : Fault} {c : AddressConstraints}
    (failed : m.allocate size align kind = (.error f, m'))
    (asked : m.constraints size align = .ok c) : ¬m'.Served := by
  intro served
  obtain ⟨-, refused⟩ | ⟨d, hd, rfl, blame⟩ := allocate_eq_error failed
  · cases asked.symm.trans refused
  · obtain ⟨⟨addr, answer, admitted⟩, -⟩ := served
    obtain refused | ⟨other, given, unfit⟩ := blame
    · cases answer.symm.trans refused
    · obtain rfl := Except.ok.inj (answer.symm.trans given)
      obtain refused | ⟨refused, -⟩ := unfit
      · cases admitted.symm.trans refused
      · cases admitted.symm.trans refused

namespace Twins

/-- Whether there may be an allocation at all does not depend on addresses. -/
theorem constraints (h : m.Twins target W n) (size align : Int) :
    Agrees (fun _ _ => True) (m.constraints size align) (n.constraints size align) := by
  unfold Memory.constraints
  rw [h.target_eq]
  exact .bindSame fun _ _ => .bindSame fun _ _ => .bindSame fun _ _ => .bindSame fun _ _ =>
    .ok trivial

/-- What was made in both memories is the same, but for its address. -/
theorem holds_of_made (h : m.Twins target W n) (left : m.Made size align kind p m' a)
    (right : n.Made size align kind q n' b) : Site.Holds ⟨a.addr, b.addr, size⟩ a b := by
  refine ⟨rfl, rfl, left.size, ?_⟩
  have id := left.id
  rw [h.left_length, ← h.right_length, ← right.id] at id
  have contents := right.contents.trans left.contents.symm
  have aligned := right.align.trans left.align.symm
  have kind := right.kind.trans left.kind.symm
  have live := right.live.trans left.live.symm
  cases a
  cases b
  simp_all

/-- The pointers to what was made are those to the start of its site. -/
theorem twin_of_made (h : m.Twins target W n) (left : m.Made size align kind p m' a)
    (right : n.Made size align kind q n' b) (placed : a.Placed m.target)
    (placed' : b.Placed n.target) :
    p.Twin (W ++ [⟨a.addr, b.addr, size⟩]) size align q := by
  have nonneg := left.size ▸ placed.nonneg
  have aligned : align ∣ a.addr + 0 := by
    rw [Int.add_zero, ← left.align]
    exact placed.aligned
  have aligned' : align ∣ b.addr + 0 := by
    rw [Int.add_zero, ← right.align]
    exact placed'.aligned
  have twin : Pointer.Twin (W ++ [⟨a.addr, b.addr, size⟩]) size align
      ⟨a.addr + 0, some ⟨W.length⟩⟩ ⟨b.addr + 0, some ⟨W.length⟩⟩ :=
    .intro List.getElem?_concat_length ⟨Int.le_refl 0, nonneg⟩
      ⟨by omega, Int.le_of_eq (Int.zero_add _)⟩ (left.align ▸ placed.power) aligned aligned'
  rw [Int.add_zero, Int.add_zero] at twin
  rw [left.base, right.base, Allocation.base, Allocation.base, left.id, right.id, h.left_length,
    h.right_length]
  exact twin

/-- Allocations that are made in both memories lie at a new site. -/
theorem made (h : m.Twins target W n) (hm : m.allocate size align kind = (.ok p, m'))
    (hn : n.allocate size align kind = (.ok q, n')) :
    ∃ w, m'.Twins target (W ++ [w]) n' ∧ p.Twin (W ++ [w]) size align q := by
  obtain ⟨a, left⟩ := made_of_allocate hm
  obtain ⟨b, right⟩ := made_of_allocate hn
  refine ⟨⟨a.addr, b.addr, size⟩, ⟨?_, ?_, ?_, ?_, ?_, ?_, fun k w found => ?_⟩,
    h.twin_of_made left right (left.placed hm).1 (right.placed hn).1⟩
  · rw [left.target, h.left_target]
  · rw [right.target, h.right_target]
  · have laid := h.left.after (.allocate size align kind)
    rwa [after, hm] at laid
  · have laid := h.right.after (.allocate size align kind)
    rwa [after, hn] at laid
  · rw [left.allocations, List.length_append, List.length_append, h.left_length]
    rfl
  · rw [right.allocations, List.length_append, List.length_append, h.right_length]
    rfl
  · obtain ⟨old, found⟩ | ⟨rfl, rfl⟩ := old_or_new found
    · rw [left.getElem?_of_lt (h.left_length ▸ old), right.getElem?_of_lt (h.right_length ▸ old)]
      exact h.hosts k w found
    · exact ⟨a, b, h.left_length ▸ left.getElem?_length, h.right_length ▸ right.getElem?_length,
        h.holds_of_made left right⟩

end Twins

end Memory

end AbstractMachine
