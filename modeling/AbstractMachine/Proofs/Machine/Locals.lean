/-
# AbstractMachine.Proofs.Machine.Locals — the memory of locals

A local that is live has memory of its own: an allocation made for the stack, as long and as aligned
as the local was declared, which its pointer points to the start of. No two locals share one, be they
of one frame or of two, and there is no allocation for the stack but those of locals. This is what it
means that frames are `Housed` in memory.

The frames here are any list of frames, and not only the stack of a machine: during a call the frame
that is being made ready stands beside the stack, and so does the one that is left during a return.
What happens to frames and memory is to make room for a local (`Housed.begin`), to free it
(`Housed.free`), and to make or free what has nothing to do with the stack; and memory that is housed
in can always be freed (`Housed.exists_deallocate`).
-/
import AbstractMachine.Machine.Run
import AbstractMachine.Proofs.Memory.Outline
import AbstractMachine.Proofs.Representation.Formers
import AbstractMachine.Proofs.Table

namespace AbstractMachine

/-! ## Houses -/

/-- A local of one of the frames, counted from the innermost one, is live, with this pointer to its
memory. -/
def HasLocal (frames : List Frame) (i : Nat) (f : Frame) (name : String) (p : Pointer) : Prop :=
  frames[i]? = some f ∧ f.locals.find? name = some p

/-- A pointer points to the start of live memory for the stack that is as a local was declared. -/
structure Houses (m : Memory) (f : Frame) (name : String) (p : Pointer) (place : PlaceTy)
    (a : Allocation) : Prop where
  declared : f.localTy name = .ok place
  found : m.allocation a.id = .ok a
  base : p = a.base
  live : a.live = true
  kind : a.kind = .stack
  size : a.size = place.byteSize m.target
  align : a.align = place.align

/-- The locals of frames own the memory for the stack: each of them has an allocation, no two have
the same, and there are no others. -/
structure Housed (frames : List Frame) (m : Memory) : Prop where
  numbered : m.Numbered
  tables : ∀ f ∈ frames, f.locals.keys.Nodup
  houses : ∀ {i f name p}, HasLocal frames i f name p → ∃ place a, Houses m f name p place a
  distinct : ∀ {i f name p j g other q}, HasLocal frames i f name p → HasLocal frames j g other q →
    p.provenance = q.provenance → i = j ∧ name = other
  owned : ∀ a ∈ m.allocations, a.live = true → a.kind = .stack →
    ∃ i f name p, HasLocal frames i f name p ∧ p.provenance = some a.id

/-- The second frame has the locals of the first one, at the same places. -/
structure Frame.SameLocals (f g : Frame) : Prop where
  function : g.function = f.function
  name : g.name = f.name
  locals : g.locals = f.locals

variable {frames frames' : List Frame} {f g : Frame} {m m' : Memory} {name : String} {p : Pointer}
  {i : Nat}

theorem hasLocal_zero_iff {h : Frame} :
    HasLocal (f :: frames) 0 h name p ↔ h = f ∧ f.locals.find? name = some p := by
  simp only [HasLocal, List.getElem?_cons_zero, Option.some.injEq]
  constructor
  · rintro ⟨rfl, found⟩
    exact ⟨rfl, found⟩
  · rintro ⟨rfl, found⟩
    exact ⟨rfl, found⟩

@[simp] theorem hasLocal_succ_iff {h : Frame} :
    HasLocal (f :: frames) (i + 1) h name p ↔ HasLocal frames i h name p := by
  simp [HasLocal]

theorem Frame.SameLocals.localTy (h : f.SameLocals g) : g.localTy name = f.localTy name := by
  rw [Frame.localTy, Frame.localTy, h.function, h.name]

theorem Frame.SameLocals.refl (f : Frame) : f.SameLocals f :=
  ⟨rfl, rfl, rfl⟩

theorem Frame.SameLocals.symm (h : f.SameLocals g) : g.SameLocals f :=
  ⟨h.function.symm, h.name.symm, h.locals.symm⟩

/-- A local is found at the same place of frames with the same locals. -/
theorem HasLocal.sameLocals (same : List.Forall₂ Frame.SameLocals frames frames')
    (has : HasLocal frames i f name p) : ∃ g, HasLocal frames' i g name p ∧ f.SameLocals g := by
  induction same generalizing i with
  | nil => simp [HasLocal] at has
  | cons head tail ih =>
      cases i with
      | zero =>
          obtain ⟨rfl, found⟩ := hasLocal_zero_iff.1 has
          exact ⟨_, hasLocal_zero_iff.2 ⟨rfl, head.locals ▸ found⟩, head⟩
      | succ i =>
          obtain ⟨g, has, same⟩ := ih (hasLocal_succ_iff.1 has)
          exact ⟨g, hasLocal_succ_iff.2 has, same⟩

theorem Houses.congr {place : PlaceTy} {a : Allocation} (h : Houses m f name p place a)
    (same : g.localTy name = f.localTy name) : Houses m g name p place a :=
  { h with declared := same.trans h.declared }

theorem Houses.of_found {place : PlaceTy} {a : Allocation} (h : Houses m f name p place a)
    (found : m'.allocation a.id = .ok a) (target : m'.target = m.target) :
    Houses m' f name p place a :=
  { h with found, size := target ▸ h.size }

theorem Houses.provenance {place : PlaceTy} {a : Allocation} (h : Houses m f name p place a) :
    p.provenance = some a.id := by
  rw [h.base]
  rfl

namespace Housed

/-- No frames have no locals. -/
theorem nil (numbered : m.Numbered)
    (none : ∀ a ∈ m.allocations, a.live = true → a.kind ≠ .stack) : Housed [] m where
  numbered
  tables f h := absurd h List.not_mem_nil
  houses h := by simp [HasLocal] at h
  distinct h := by simp [HasLocal] at h
  owned a ha live kind := absurd kind (none a ha live)

/-- Without frames there is no memory for the stack. -/
theorem not_stack_of_nil (h : Housed [] m) :
    ∀ a ∈ m.allocations, a.live = true → a.kind ≠ .stack := by
  intro a ha live kind
  obtain ⟨i, f, name, p, ⟨hi, -⟩, -⟩ := h.owned a ha live kind
  simp at hi

/-- Where the bytes of memory change and nothing else, locals keep their memory. -/
theorem of_outline_eq (h : Housed frames m) (same : m'.outline = m.outline) : Housed frames m' where
  numbered := Memory.numbered_of_outline_eq same h.numbered
  tables := h.tables
  houses has := by
    obtain ⟨place, a, house⟩ := h.houses has
    obtain ⟨b, hb, outline⟩ := Memory.exists_allocation_of_outline_eq same.symm house.found
    obtain ⟨id, addr, align, kind, live, size⟩ := Allocation.outline_eq_iff.1 outline
    have target : m'.target = m.target := Memory.target_of_outline_eq same
    refine ⟨place, b, house.declared, id ▸ hb, ?_, live ▸ house.live, kind ▸ house.kind, ?_, ?_⟩
    · rw [house.base, Allocation.base, Allocation.base, addr, id]
    · rw [size, target, house.size]
    · rw [align, house.align]
  distinct := h.distinct
  owned a' ha' live kind := by
    obtain ⟨a, ha, outline⟩ := Memory.exists_mem_of_outline_eq same ha'
    obtain ⟨id, -, -, kind', live', -⟩ := Allocation.outline_eq_iff.1 outline
    rw [← id]
    exact h.owned a ha (live'.trans live) (kind'.trans kind)

/-- Housing looks at the functions and locals of frames, and at nothing else in them. -/
theorem of_sameLocals (h : Housed frames m) (same : List.Forall₂ Frame.SameLocals frames frames') :
    Housed frames' m := by
  have back : List.Forall₂ Frame.SameLocals frames' frames :=
    List.Forall₂.flip (same.imp fun _ _ => .symm)
  refine ⟨h.numbered, fun g hg => ?_, fun has => ?_, fun has has' => ?_, fun a ha live kind => ?_⟩
  · obtain ⟨f, hf, same⟩ := exists_of_forall₂ same hg
    exact same.locals ▸ h.tables f hf
  · obtain ⟨f, has, same⟩ := has.sameLocals back
    obtain ⟨place, a, house⟩ := h.houses has
    exact ⟨place, a, house.congr same.symm.localTy⟩
  · obtain ⟨f, has, -⟩ := has.sameLocals back
    obtain ⟨g, has', -⟩ := has'.sameLocals back
    exact h.distinct has has'
  · obtain ⟨i, f, name, p, has, named⟩ := h.owned a ha live kind
    obtain ⟨g, has, -⟩ := has.sameLocals same
    exact ⟨i, g, name, p, has, named⟩

/-- A frame without locals needs no memory. -/
theorem cons_iff (empty : f.locals.entries = []) : Housed (f :: frames) m ↔ Housed frames m := by
  have none (name : String) : f.locals.find? name = none := by
    simp [Table.find?, empty]
  have skip {i g name p} : HasLocal (f :: frames) i g name p ↔
      ∃ j, i = j + 1 ∧ HasLocal frames j g name p := by
    cases i with
    | zero => simp [hasLocal_zero_iff, none]
    | succ i => simp
  constructor
  · intro h
    refine ⟨h.numbered, fun g hg => h.tables g (List.mem_cons_of_mem f hg), ?_, ?_, ?_⟩
    · exact fun has => h.houses (skip.2 ⟨_, rfl, has⟩)
    · intro i g name p j g' other q has has' same
      obtain ⟨number, key⟩ := h.distinct (skip.2 ⟨_, rfl, has⟩) (skip.2 ⟨_, rfl, has'⟩) same
      exact ⟨Nat.succ.inj number, key⟩
    · intro a ha live kind
      obtain ⟨i, g, name, p, has, named⟩ := h.owned a ha live kind
      obtain ⟨j, -, has⟩ := skip.1 has
      exact ⟨j, g, name, p, has, named⟩
  · intro h
    refine ⟨h.numbered, ?_, ?_, ?_, ?_⟩
    · refine List.forall_mem_cons.2 ⟨?_, h.tables⟩
      simp [Table.keys, empty]
    · intro i g name p has
      obtain ⟨j, -, has⟩ := skip.1 has
      exact h.houses has
    · intro i g name p j g' other q has has' same
      obtain ⟨i, rfl, has⟩ := skip.1 has
      obtain ⟨j, rfl, has'⟩ := skip.1 has'
      obtain ⟨number, key⟩ := h.distinct has has' same
      exact ⟨congrArg Nat.succ number, key⟩
    · intro a ha live kind
      obtain ⟨i, g, name, p, has, named⟩ := h.owned a ha live kind
      exact ⟨i + 1, g, name, p, skip.2 ⟨i, rfl, has⟩, named⟩

/-- Memory that a local has can be freed as it was declared. -/
theorem exists_deallocate (h : Housed (f :: frames) m) (found : f.locals.find? name = some p) :
    ∃ place a, Houses m f name p place a ∧
      m.deallocate p (place.byteSize m.target) place.align .stack =
        .ok (m.modify a.id fun a => { a with live := false }) := by
  obtain ⟨place, a, house⟩ := h.houses (hasLocal_zero_iff.2 ⟨rfl, found⟩)
  refine ⟨place, a, house, Memory.deallocate_eq_ok_iff.2 ?_⟩
  refine ⟨a.id, a, house.provenance, house.found, house.live, house.kind, ?_, ?_, ?_, rfl⟩
  · rw [house.base]
    rfl
  · exact house.size.symm
  · exact house.align.symm

/-- Other memory may be freed. -/
theorem free_other (h : Housed frames m) {a : Allocation} (found : m.allocation a.id = .ok a)
    (kind : a.kind ≠ .stack) : Housed frames (m.modify a.id fun a => { a with live := false }) where
  numbered := Memory.numbered_modify h.numbered fun _ => rfl
  tables := h.tables
  houses has := by
    obtain ⟨place, b, house⟩ := h.houses has
    have other : b.id ≠ a.id := by
      intro same
      rw [← same, house.found] at found
      exact kind (Except.ok.inj found ▸ house.kind)
    exact ⟨place, b, house.of_found (Memory.allocation_modify_of_ne found other house.found) rfl⟩
  distinct := h.distinct
  owned b hb live stack := by
    rcases Memory.mem_modify found hb with rfl | ⟨k, -, old⟩
    · cases live
    · exact h.owned b (List.mem_of_getElem? old) live stack

/-- Memory may be made for other things. -/
theorem made_other (h : Housed frames m) {size align : Int} {kind : AllocKind} {a : Allocation}
    (made : m.Made size align kind p m' a) (other : kind ≠ .stack) : Housed frames m' where
  numbered := made.numbered h.numbered
  tables := h.tables
  houses has := by
    obtain ⟨place, b, house⟩ := h.houses has
    exact ⟨place, b, house.of_found (made.allocation house.found) made.target⟩
  distinct := h.distinct
  owned b hb live stack := by
    rw [made.allocations] at hb
    rcases List.mem_append.1 hb with old | new
    · exact h.owned b old live stack
    · rw [List.mem_singleton.1 new, made.kind] at stack
      exact absurd stack other

/-- A local begins to live in fresh memory. -/
theorem begin (h : Housed (f :: frames) m) {place : PlaceTy} {a : Allocation}
    (dead : f.locals.find? name = none) (declared : f.localTy name = .ok place)
    (made : m.Made (place.byteSize m.target) place.align .stack p m' a) :
    Housed ({ f with locals := f.locals.insert name p } :: frames) m' := by
  -- A local is the new one or an old one.
  have back {i g other q}
      (has : HasLocal ({ f with locals := f.locals.insert name p } :: frames) i g other q) :
      (i = 0 ∧ g = { f with locals := f.locals.insert name p } ∧ other = name ∧ q = p) ∨
        ∃ g₀, HasLocal (f :: frames) i g₀ other q ∧ g.localTy other = g₀.localTy other := by
    cases i with
    | succ i => exact .inr ⟨g, hasLocal_succ_iff.2 (hasLocal_succ_iff.1 has), rfl⟩
    | zero =>
        obtain ⟨rfl, found⟩ := hasLocal_zero_iff.1 has
        rw [Table.find?_insert] at found
        split at found
        · exact .inl ⟨rfl, rfl, ‹_›, (Option.some.inj found).symm⟩
        · exact .inr ⟨f, hasLocal_zero_iff.2 ⟨rfl, found⟩, rfl⟩
  have named : p.provenance = some a.id := by
    rw [made.base]
    rfl
  have fresh {i g other q} (has : HasLocal (f :: frames) i g other q) :
      q.provenance ≠ p.provenance := by
    obtain ⟨_, b, house⟩ := h.houses has
    rw [house.provenance, named]
    exact fun same => made.id_ne house.found (Option.some.inj same)
  refine ⟨made.numbered h.numbered, ?_, ?_, ?_, ?_⟩
  · obtain ⟨head, tail⟩ := List.forall_mem_cons.1 h.tables
    exact List.forall_mem_cons.2 ⟨Table.nodup_keys_insert head dead, tail⟩
  · intro i g other q has
    obtain ⟨-, rfl, rfl, rfl⟩ | ⟨g₀, has, same⟩ := back has
    · have size : a.size = place.byteSize m'.target := by rw [made.size, made.target]
      exact ⟨place, a, declared, made.allocation_new, made.base, made.live, made.kind, size,
        made.align⟩
    · obtain ⟨place, b, house⟩ := h.houses has
      exact ⟨place, b, (house.congr same).of_found (made.allocation house.found) made.target⟩
  · intro i g other q j g' other' q' has has' same
    obtain ⟨rfl, -, rfl, rfl⟩ | ⟨_, old, -⟩ := back has
    · obtain ⟨rfl, -, rfl, -⟩ | ⟨_, old', -⟩ := back has'
      · exact ⟨rfl, rfl⟩
      · exact absurd same.symm (fresh old')
    · obtain ⟨rfl, -, rfl, rfl⟩ | ⟨_, old', -⟩ := back has'
      · exact absurd same (fresh old)
      · exact h.distinct old old' same
  · intro b hb live kind
    rw [made.allocations] at hb
    rcases List.mem_append.1 hb with old | new
    · obtain ⟨i, g, other, q, has, owner⟩ := h.owned b old live kind
      cases i with
      | succ i => exact ⟨i + 1, g, other, q, hasLocal_succ_iff.2 (hasLocal_succ_iff.1 has), owner⟩
      | zero =>
          obtain ⟨rfl, found⟩ := hasLocal_zero_iff.1 has
          refine ⟨0, _, other, q, hasLocal_zero_iff.2 ⟨rfl, ?_⟩, owner⟩
          have distinct : other ≠ name := by
            rintro rfl
            simp [dead] at found
          rw [Table.find?_insert, if_neg distinct]
          exact found
    · refine ⟨0, _, name, p, hasLocal_zero_iff.2 ⟨rfl, ?_⟩, ?_⟩
      · rw [Table.find?_insert, if_pos rfl]
      · rw [List.mem_singleton.1 new, named]

/-- A local stops to live, and its memory with it. -/
theorem free (h : Housed (f :: frames) m) {place : PlaceTy} {a : Allocation}
    (found : f.locals.find? name = some p) (house : Houses m f name p place a) :
    Housed ({ f with locals := f.locals.erase name } :: frames)
      (m.modify a.id fun a => { a with live := false }) := by
  -- A local that is left was there before, and is another one.
  have back {i g other q}
      (has : HasLocal ({ f with locals := f.locals.erase name } :: frames) i g other q) :
      ∃ g₀, HasLocal (f :: frames) i g₀ other q ∧ g.localTy other = g₀.localTy other ∧
        q.provenance ≠ p.provenance := by
    have mine : HasLocal (f :: frames) 0 f name p := hasLocal_zero_iff.2 ⟨rfl, found⟩
    cases i with
    | succ i =>
        have has := hasLocal_succ_iff (f := f).2 (hasLocal_succ_iff.1 has)
        refine ⟨g, has, rfl, fun same => ?_⟩
        exact Nat.succ_ne_zero i (h.distinct has mine same).1
    | zero =>
        obtain ⟨rfl, found⟩ := hasLocal_zero_iff.1 has
        rw [Table.find?_erase] at found
        split at found
        · cases found
        · have has : HasLocal (f :: frames) 0 f other q := hasLocal_zero_iff.2 ⟨rfl, found⟩
          exact ⟨f, has, rfl, fun same => ‹¬other = name› (h.distinct has mine same).2⟩
  refine ⟨Memory.numbered_modify h.numbered fun _ => rfl, ?_, ?_, ?_, ?_⟩
  · obtain ⟨head, tail⟩ := List.forall_mem_cons.1 h.tables
    exact List.forall_mem_cons.2 ⟨Table.nodup_keys_erase head, tail⟩
  · intro i g other q has
    obtain ⟨g₀, has, same, distinct⟩ := back has
    obtain ⟨place, b, house'⟩ := h.houses has
    have other : b.id ≠ a.id := by
      rw [house'.provenance, house.provenance] at distinct
      exact fun same => distinct (congrArg some same)
    refine ⟨place, b, (house'.congr same).of_found ?_ rfl⟩
    exact Memory.allocation_modify_of_ne house.found other house'.found
  · intro i g other q j g' other' q' has has' same
    obtain ⟨_, has, -, -⟩ := back has
    obtain ⟨_, has', -, -⟩ := back has'
    exact h.distinct has has' same
  · intro b hb live kind
    rcases Memory.mem_modify house.found hb with rfl | ⟨k, number, old⟩
    · cases live
    · obtain ⟨i, g, other, q, has, owner⟩ := h.owned b (List.mem_of_getElem? old) live kind
      rw [h.numbered k b old] at owner
      cases i with
      | succ i =>
          refine ⟨i + 1, g, other, q, hasLocal_succ_iff.2 (hasLocal_succ_iff.1 has), ?_⟩
          rw [owner, h.numbered k b old]
      | zero =>
          obtain ⟨rfl, still⟩ := hasLocal_zero_iff.1 has
          refine ⟨0, _, other, q, hasLocal_zero_iff.2 ⟨rfl, ?_⟩, by rw [owner, h.numbered k b old]⟩
          have distinct : other ≠ name := by
            rintro rfl
            rw [found] at still
            rw [← Option.some.inj still, house.provenance] at owner
            exact number (Option.some.inj owner).symm
          rw [Table.find?_erase, if_neg distinct]
          exact still

end Housed

end AbstractMachine
