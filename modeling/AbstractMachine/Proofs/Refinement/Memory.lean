/-
# AbstractMachine.Proofs.Refinement.Memory — memory with more defined contents

Two memories are ordered if they hold the same allocations and differ in contents alone, where the
second has more defined bytes. Whether an access is allowed does not depend on contents, and on a
pointer's provenance only if there are bytes to access; so what is allowed in the first memory is
allowed in the second through every pointer above, and it reads more defined bytes, or leaves memory
ordered. Making an allocation depends on nothing that may differ, so it has the same answer in both,
even when it fails.
-/
import AbstractMachine.Proofs.Memory.Operations
import AbstractMachine.Proofs.Refinement.Values

namespace AbstractMachine

open AbsByte

/-- The same allocation, with more defined contents. -/
structure Allocation.Le (a b : Allocation) : Prop where
  id : b.id = a.id
  addr : b.addr = a.addr
  align : b.align = a.align
  kind : b.kind = a.kind
  live : b.live = a.live
  contents : leAll a.contents b.contents = true

namespace Allocation.Le

variable {a b : Allocation}

theorem refl (a : Allocation) : a.Le a :=
  ⟨rfl, rfl, rfl, rfl, rfl, leAll_refl _⟩

theorem size (h : a.Le b) : b.size = a.size := by
  rw [Allocation.size, Allocation.size, length_eq_of_leAll h.contents]

theorem stop (h : a.Le b) : b.stop = a.stop := by
  rw [Allocation.stop, Allocation.stop, h.addr, h.size]

theorem range (h : a.Le b) : b.range = a.range := by
  rw [Allocation.range, Allocation.range, h.addr, h.stop]

end Allocation.Le

/-- Lists that are changed in step, at the same place, stay related. -/
theorem forall₂_modify {α β : Type} {R : α → β → Prop} {xs : List α} {ys : List β} {f : α → α}
    {g : β → β} {k : Nat} (h : List.Forall₂ R xs ys) (step : ∀ x y, R x y → R (f x) (g y)) :
    List.Forall₂ R (xs.modify k f) (ys.modify k g) := by
  induction h generalizing k with
  | nil => cases k <;> exact .nil
  | cons head tail ih =>
      cases k with
      | zero => exact .cons (step _ _ head) tail
      | succ k => exact .cons head ih

/-- The same allocations, with more defined contents, and the same chooser that was asked the same
questions. -/
structure Memory.Le (m n : Memory) : Prop where
  target : n.target = m.target
  chooser : n.chooser = m.chooser
  asked : n.asked = m.asked
  allocations : List.Forall₂ Allocation.Le m.allocations n.allocations

namespace Memory

variable {m n : Memory} {p q : Pointer} {size align : Int} {kind : AllocKind} {a : Allocation}

/-- An identity names the same allocation in both memories. -/
theorem Le.allocation (h : m.Le n) {id : AllocId} (found : m.allocation id = .ok a) :
    ∃ b, n.allocation id = .ok b ∧ a.Le b := by
  obtain ⟨k, rfl, ha⟩ := exists_getElem?_of_allocation found
  obtain ⟨bound, rfl⟩ := List.getElem?_eq_some_iff.1 ha
  have bound' : k < n.allocations.length := h.allocations.length_eq ▸ bound
  have le := (List.forall₂_iff_get.1 h.allocations).2 k bound bound'
  exact ⟨_, allocation_natCast.2 (List.getElem?_eq_getElem bound'), le⟩

/-- Allocations that are changed in step stay in order. -/
theorem Le.modify (h : m.Le n) (id : AllocId) {f g : Allocation → Allocation}
    (step : ∀ a b, a.Le b → (f a).Le (g b)) : (m.modify id f).Le (n.modify id g) where
  target := h.target
  chooser := h.chooser
  asked := h.asked
  allocations := forall₂_modify h.allocations step

/-! ## Making and freeing allocations -/

/-- The same allocations are live. -/
theorem Le.live (h : m.Le n) : n.live.map Allocation.range = m.live.map Allocation.range := by
  have filtered : List.Forall₂ Allocation.Le m.live n.live :=
    List.rel_filter (fun _ _ le => by simp only [le.live]) h.allocations
  rw [← List.forall₂_eq_eq_eq, List.forall₂_map_left_iff, List.forall₂_map_right_iff]
  exact List.Forall₂.flip (filtered.imp fun _ _ le => le.range)

theorem Le.constraints (h : m.Le n) : n.constraints size align = m.constraints size align := by
  rw [Memory.constraints, Memory.constraints, h.target, h.live]

theorem Le.ask (h : m.Le n) (c : AddressConstraints) :
    { m with asked := c :: m.asked }.Le { n with asked := c :: n.asked } where
  target := h.target
  chooser := h.chooser
  asked := congrArg (c :: ·) h.asked
  allocations := h.allocations

theorem Le.addAllocation (h : m.Le n) (size align addr : Int) (kind : AllocKind) :
    (m.addAllocation size align addr kind).Le (n.addAllocation size align addr kind) where
  target := h.target
  chooser := h.chooser
  asked := h.asked
  allocations := by
    rw [Memory.addAllocation, Memory.addAllocation, h.allocations.length_eq]
    exact List.rel_append h.allocations (.cons (.refl _) .nil)

/-- An allocation has the same answer in both memories, and leaves them in order. -/
theorem Le.allocate (h : m.Le n) (size align : Int) (kind : AllocKind) :
    (n.allocate size align kind).1 = (m.allocate size align kind).1 ∧
      (m.allocate size align kind).2.Le (n.allocate size align kind).2 := by
  rw [Memory.allocate, Memory.allocate, h.constraints]
  cases m.constraints size align with
  | error f => exact ⟨rfl, h⟩
  | ok c =>
      have asked := h.ask c
      simp only [h.chooser, h.asked] at asked
      -- One chooser is asked the same question after the same ones, so there is one answer.
      simp only [choose, h.chooser, h.asked]
      cases m.chooser m.asked c with
      | error f => exact ⟨rfl, asked⟩
      | ok addr =>
          simp only []
          rcases c.admits addr with f | _ | _
          · exact ⟨rfl, asked⟩
          · exact ⟨rfl, asked⟩
          · refine ⟨?_, asked.addAllocation size align addr kind⟩
            simp only [h.allocations.length_eq]

theorem deallocate_improves (h : m.Le n) (le : p.Le q) :
    Improves Memory.Le (m.deallocate p size align kind) (n.deallocate q size align kind) := by
  intro m' freed
  obtain ⟨id, a, named, found, live, sameKind, start, sameSize, sameAlign, rfl⟩ :=
    deallocate_eq_ok_iff.1 freed
  obtain ⟨b, found', below⟩ := h.allocation found
  refine ⟨_, deallocate_eq_ok_iff.2 ⟨id, b, ?_, found', ?_, ?_, ?_, ?_, ?_, rfl⟩, ?_⟩
  · exact le.named named
  · rw [below.live, live]
  · rw [below.kind, sameKind]
  · rw [← le.1, start, below.addr]
  · rw [below.size, sameSize]
  · rw [below.align, sameAlign]
  · exact h.modify id fun a b le => { le with live := rfl }

/-! ## Access -/

/-- Bytes that a pointer may access, every pointer above may access. -/
theorem Hits.of_le (h : m.Le n) (le : p.Le q) (hits : m.Hits p size a) :
    ∃ b, n.Hits q size b ∧ a.Le b := by
  obtain ⟨id, named, found⟩ := hits.named
  obtain ⟨b, found', below⟩ := h.allocation found
  refine ⟨b, ⟨⟨id, le.named named, found'⟩, ?_, ?_, ?_, ?_⟩, below⟩
  · rw [below.live, hits.live]
  · rw [← le.1]
    exact hits.nonnull
  · rw [← le.1, below.addr]
    exact hits.start
  · rw [← le.1, below.stop]
    exact hits.stop

theorem load_improves (h : m.Le n) (le : p.Le q) :
    Improves (fun bs cs => leAll bs cs = true) (m.load p size align) (n.load q size align) := by
  intro bs loaded
  obtain ⟨aligned, ⟨zero, rfl⟩ | ⟨nonzero, a, hits, rfl⟩⟩ := load_eq_ok_iff.1 loaded
  · exact ⟨[], load_eq_ok_iff.2 ⟨le.1 ▸ aligned, .inl ⟨zero, rfl⟩⟩, rfl⟩
  · obtain ⟨b, hits', below⟩ := hits.of_le h le
    refine ⟨_, load_eq_ok_iff.2 ⟨le.1 ▸ aligned, .inr ⟨nonzero, b, hits', rfl⟩⟩, ?_⟩
    rw [← le.1, below.addr]
    exact leAll_read _ _ below.contents

theorem store_improves (h : m.Le n) (le : p.Le q) {bs cs : List AbsByte}
    (data : leAll bs cs = true) : Improves Memory.Le (m.store p bs align) (n.store q cs align) := by
  intro m' stored
  have length := length_eq_of_leAll data
  obtain ⟨aligned, ⟨rfl, rfl⟩ | ⟨nonempty, a, hits, rfl⟩⟩ := store_eq_ok_iff.1 stored
  · obtain rfl := List.length_eq_zero_iff.1 length.symm
    exact ⟨n, store_eq_ok_iff.2 ⟨le.1 ▸ aligned, .inl ⟨rfl, rfl⟩⟩, h⟩
  · obtain ⟨b, hits', below⟩ := hits.of_le h le
    have nonempty' : cs ≠ [] := fun empty => nonempty (by simpa [empty] using length)
    refine ⟨_, store_eq_ok_iff.2 ⟨le.1 ▸ aligned, .inr ⟨nonempty', b, length ▸ hits', rfl⟩⟩, ?_⟩
    rw [below.id]
    refine h.modify a.id fun c d le' => { le' with contents := ?_ }
    rw [← le.1, le'.addr]
    exact leAll_overlay _ le'.contents data

theorem dereferenceable_improves (h : m.Le n) (le : p.Le q) :
    Improves (fun _ _ => True) (m.dereferenceable p size align)
      (n.dereferenceable q size align) := by
  refine .bind (V := fun _ _ => True) ?_ fun _ _ _ _ => .pure trivial
  intro o checked
  obtain ⟨aligned, ⟨zero, rfl⟩ | ⟨nonzero, a, rfl, hits⟩⟩ := checkPtr_eq_ok_iff.1 checked
  · exact ⟨none, checkPtr_eq_ok_iff.2 ⟨le.1 ▸ aligned, .inl ⟨zero, rfl⟩⟩, trivial⟩
  · obtain ⟨b, hits', -⟩ := hits.of_le h le
    exact ⟨some b, checkPtr_eq_ok_iff.2 ⟨le.1 ▸ aligned, .inr ⟨nonzero, b, rfl, hits'⟩⟩, trivial⟩

theorem offsetInBounds_improves (h : m.Le n) (le : p.Le q) {offset : Int} :
    Improves Pointer.Le (m.offsetInBounds p offset) (n.offsetInBounds q offset) := by
  intro p' moved
  obtain ⟨distance, addr, between, rfl⟩ := offsetInBounds_eq_ok_iff.1 moved
  refine ⟨_, offsetInBounds_eq_ok_iff.2 ⟨h.target ▸ distance, ?_, ?_, rfl⟩, ?_⟩
  · rw [h.target, ← le.1]
    exact addr
  · have low : Pointer.Le { p with addr := min p.addr (p.addr + offset) }
        { q with addr := min q.addr (q.addr + offset) } := ⟨by rw [le.1], le.2⟩
    obtain ⟨_, reached, -⟩ := dereferenceable_improves h low between
    rw [← le.1] at reached ⊢
    exact reached
  · exact ⟨congrArg (· + offset) le.1, le.2⟩

/-! ## Values in memory -/

theorem typedLoad_improves (h : m.Le n) (le : p.Le q) {place : PlaceTy} :
    Improves (fun v w => v.le w = true) (m.typedLoad p place) (n.typedLoad q place) := by
  intro v loaded
  obtain ⟨bs, read, decoded⟩ := typedLoad_eq_ok_iff.1 loaded
  obtain ⟨cs, read', below⟩ := load_improves h le read
  obtain ⟨w, decoded', le⟩ := Ty.exists_decode_of_leAll below decoded
  refine ⟨w, typedLoad_eq_ok_iff.2 ⟨cs, ?_, ?_⟩, le⟩
  · rw [h.target]
    exact read'
  · rw [h.target]
    exact decoded'

theorem typedStore_improves (h : m.Le n) (le : p.Le q) {place : PlaceTy} {v w : Value}
    (value : v.le w = true) :
    Improves Memory.Le (m.typedStore p v place) (n.typedStore q w place) := by
  intro m' stored
  obtain ⟨bs, encoded, written⟩ := typedStore_eq_ok_iff.1 stored
  obtain ⟨cs, encoded', below⟩ := Ty.encode_improves value encoded
  obtain ⟨n', written', le'⟩ := store_improves h le below written
  refine ⟨n', typedStore_eq_ok_iff.2 ⟨cs, ?_, written'⟩, le'⟩
  rw [h.target]
  exact encoded'

theorem deinit_improves (h : m.Le n) (le : p.Le q) {place : PlaceTy} :
    Improves Memory.Le (m.deinit p place) (n.deinit q place) := by
  rw [Memory.deinit, Memory.deinit, h.target]
  exact store_improves h le (leAll_refl _)

theorem retag_improves (h : m.Le n) (le : p.Le q) {t : PtrTy} :
    Improves Pointer.Le (m.retag p t) (n.retag q t) := by
  unfold Memory.retag
  cases t.safePointee with
  | none => exact .pure le
  | some pointee => exact (dereferenceable_improves h le).bind fun _ _ _ _ => .pure le

theorem retagFields_improves {fields : List Field} {vs ws : List Value}
    (le : List.Forall₂ (fun v w => v.le w = true) vs ws)
    (each : ∀ f ∈ fields, ∀ v w, v.le w = true →
      Improves (fun v w => v.le w = true) (m.retagValue f.ty v) (n.retagValue f.ty w)) :
    Improves (List.Forall₂ fun v w => v.le w = true) (m.retagFields fields vs)
      (n.retagFields fields ws) := by
  induction fields generalizing vs ws with
  | nil => exact .pure List.Forall₂.nil
  | cons f fields ih =>
      obtain ⟨offset, ty⟩ := f
      cases le with
      | nil => exact .pure List.Forall₂.nil
      | cons head tail =>
          refine (each ⟨offset, ty⟩ List.mem_cons_self _ _ head).bind fun v w _ below => ?_
          refine (ih tail fun g hg => each g (List.mem_cons_of_mem _ hg)).bind fun _ _ _ rest => ?_
          exact .pure (List.Forall₂.cons below rest)

theorem retagAll_improves {f g : Value → Except Fault Value} {vs ws : List Value}
    (le : List.Forall₂ (fun v w => v.le w = true) vs ws)
    (each : ∀ v w, v.le w = true → Improves (fun v w => v.le w = true) (f v) (g w)) :
    Improves (List.Forall₂ fun v w => v.le w = true) (retagAll f vs) (retagAll g ws) := by
  induction le with
  | nil => exact .pure List.Forall₂.nil
  | cons head _ ih =>
      exact (each _ _ head).bind fun _ _ _ below => ih.bind fun _ _ _ rest =>
        .pure (List.Forall₂.cons below rest)

theorem retagVariant_improves {d i : Int} {variants : List Variant} {v w : Value}
    (le : v.le w = true) (each : ∀ x ∈ variants, ∀ v w, v.le w = true →
      Improves (fun v w => v.le w = true) (m.retagValue x.ty v) (n.retagValue x.ty w)) :
    Improves (fun v w => v.le w = true) (m.retagVariant d variants i v)
      (n.retagVariant d variants i w) := by
  induction variants generalizing i with
  | nil => exact .error
  | cons x variants ih =>
      obtain ⟨ty, tagger⟩ := x
      rw [retagVariant, retagVariant]
      split
      · exact each ⟨ty, tagger⟩ List.mem_cons_self v w le
      · exact ih fun y hy => each y (List.mem_cons_of_mem _ hy)

/-- What the pointers in a value have to point to is there in the second memory too. -/
theorem retagValue_improves (h : m.Le n) {ty : Ty} {v w : Value} (le : v.le w = true) :
    Improves (fun v w => v.le w = true) (m.retagValue ty v) (n.retagValue ty w) := by
  induction ty using Ty.induction generalizing v w with
  | bool | int _ | union _ _ => cases v <;> cases w <;> exact .pure le
  | ptr t =>
      cases v with
      | ptr p =>
          obtain ⟨q, rfl, below⟩ := Value.ptr_le_iff.1 le
          exact (retag_improves h below).bind fun _ _ _ le => .pure (Value.ptr_le_ptr le)
      | _ => cases w <;> first | exact .pure le | simp [Value.le] at le
  | tuple fields size ih =>
      cases v with
      | tuple vs =>
          obtain ⟨ws, rfl, elems⟩ := Value.tuple_le_iff.1 le
          refine (retagFields_improves elems fun f hf _ _ => ih f hf).bind fun _ _ _ below => ?_
          exact .pure (Value.tuple_le_iff.2 ⟨_, rfl, below⟩)
      | _ => cases w <;> first | exact .pure le | simp [Value.le] at le
  | array elem count ih =>
      cases v with
      | tuple vs =>
          obtain ⟨ws, rfl, elems⟩ := Value.tuple_le_iff.1 le
          refine (retagAll_improves elems fun _ _ => ih).bind fun _ _ _ below => ?_
          exact .pure (Value.tuple_le_iff.2 ⟨_, rfl, below⟩)
      | _ => cases w <;> first | exact .pure le | simp [Value.le] at le
  | enum e ih _ =>
      obtain ⟨variants, discriminator, discriminantTy, size⟩ := e
      cases v with
      | variant d payload =>
          obtain ⟨payload', rfl, below⟩ := Value.variant_le_iff.1 le
          refine (retagVariant_improves below fun x hx _ _ => ih x hx).bind fun _ _ _ below => ?_
          exact .pure (Value.variant_le_iff.2 ⟨_, rfl, below⟩)
      | _ => cases w <;> first | exact .pure le | simp [Value.le] at le

end Memory

end AbstractMachine
