/-
# AbstractMachine.Proofs.Machine.Projection — the places inside of a local

A program goes from a local to its fields, its elements and the payloads of its variants, and to
theirs. As long as the types of locals are `Snug`, none of this can leave the memory of the local:
what is projected lies in it with both ends (`Memory.Lies`), and at an address that is a multiple of
the alignment that is tracked for the place. So the only thing that a chain of projections can be
refused for is an index that is not one of the array (`IndexFault`), and what it finds can be loaded
from and stored to.

That the alignment is right is carried along the chain, one projection at a time: what is left of an
alignment at a distance divides both of them.
-/
import AbstractMachine.Proofs.Machine.Typing
import AbstractMachine.Proofs.Noninterference.Evaluation

namespace AbstractMachine

variable {target : Target} {α : Type}

/-- No part of a type reaches out of it: the fields of tuples and unions begin and end inside, and
the payloads of an enum have all of its bytes. -/
structure Ty.Snug (target : Target) (t : Ty) : Prop where
  fields_within : t.FieldsWithin target
  payloads_fill : t.PayloadsFill target

namespace Memory

variable {m m' : Memory} {a : Allocation} {p q : Pointer} {place : PlaceTy} {ty : Ty}
  {align : Int}

/-- A place lies in a live allocation with both of its ends, at an address that is as aligned as the
place is taken to be. -/
structure Lies (m : Memory) (a : Allocation) (q : Pointer) (place : PlaceTy) : Prop where
  found : m.allocation a.id = .ok a
  live : a.live = true
  provenance : q.provenance = some a.id
  start : a.addr ≤ q.addr ∧ q.addr ≤ a.stop
  stop : a.addr ≤ q.addr + place.byteSize m.target ∧ q.addr + place.byteSize m.target ≤ a.stop
  power : PowerOfTwo place.align
  aligned : place.align ∣ q.addr

namespace Lies

/-- An access in an allocation, at a multiple of an alignment, is granted. -/
theorem checkPtr_of_inside (h : m.Lies a q place) (laid : m.Laid) {addr size align : Int}
    (start : a.addr ≤ addr) (stop : addr + size ≤ a.stop) (power : PowerOfTwo align)
    (aligned : align ∣ addr) :
    m.checkPtr { q with addr } size align = .ok (if size = 0 then none else some a) := by
  obtain ⟨k, same, at_⟩ := exists_getElem?_of_allocation h.found
  obtain ⟨o, rfl⟩ : ∃ o, addr = a.addr + o := ⟨addr - a.addr, by omega⟩
  rw [Allocation.stop] at stop
  have pointer : ({ q with addr := a.addr + o } : Pointer) = ⟨a.addr + o, some ⟨k⟩⟩ := by
    rw [h.provenance, same]
  rw [pointer, checkPtr_at laid at_ (by omega) power aligned]
  have inside : decide (o + size ≤ a.size) = true := decide_eq_true (by omega)
  rw [h.live, inside]
  split
  · rfl
  · rfl

/-- What lies in memory can be loaded from and stored to. -/
theorem checkPtr (h : m.Lies a q place) (laid : m.Laid) :
    m.checkPtr q (place.byteSize m.target) place.align =
      .ok (if place.byteSize m.target = 0 then none else some a) :=
  h.checkPtr_of_inside laid h.start.1 h.stop.2 h.power h.aligned

/-- Where memory changes in nothing but its bytes, what lay in it does so still. -/
theorem of_outline_eq (h : m.Lies a q place) (same : m'.outline = m.outline) :
    ∃ b, b.id = a.id ∧ m'.Lies b q place := by
  obtain ⟨b, found, outline⟩ := exists_allocation_of_outline_eq same.symm h.found
  obtain ⟨id, addr, -, -, live, size⟩ := Allocation.outline_eq_iff.1 outline
  have target := target_of_outline_eq same
  have stop : b.stop = a.stop := by rw [Allocation.stop, Allocation.stop, addr, size]
  refine ⟨b, id, ?_, live.trans h.live, id ▸ h.provenance, ?_, ?_, h.power, h.aligned⟩
  · rw [id]
    exact found
  · rw [addr, stop]
    exact h.start
  · rw [addr, stop, target]
    exact h.stop

/-- A distance that stays between the ends of a place is one that a pointer can be moved by. -/
theorem isizeInBounds (h : m.Lies a q place) (laid : m.Laid) {d : Int}
    (inside : Between (place.byteSize m.target) d) : m.target.isizeInBounds d = .ok true := by
  have placed := laid.placed a (mem_allocations_of_allocation h.found)
  have width := placed.one_le_ptrSize
  obtain ⟨top, greatest, fits⟩ := placed.bounded
  rw [IntTy.max_eq (t := IntTy.isize m.target) width, Except.ok.injEq] at greatest
  have least : (IntTy.isize m.target).low = -((IntTy.isize m.target).high + 1) := by
    simp [IntTy.low, IntTy.high, IntTy.isize]
  have start := h.start
  have stop := h.stop
  rw [Allocation.stop] at start stop
  unfold Between at inside
  rw [Target.isizeInBounds_eq width]
  exact congrArg Except.ok (decide_eq_true (by omega))

/-- A part of a place lies where the place does: the pointer can be moved to it, and an alignment
that divides that of the place and the distance is one of the part. -/
theorem project (h : m.Lies a q ⟨ty, align⟩) (laid : m.Laid) {part : PlaceTy} {d : Int}
    (start : Between (ty.byteSize m.target) d)
    (stop : Between (ty.byteSize m.target) (d + part.byteSize m.target))
    (power : PowerOfTwo part.align) (dvd : part.align ∣ align) (dvd' : part.align ∣ d) :
    m.offsetInBounds q d = .ok { q with addr := q.addr + d } ∧
      m.Lies a { q with addr := q.addr + d } part := by
  have placed := laid.placed a (mem_allocations_of_allocation h.found)
  have positive := placed.positive
  have below := placed.stop_lt_limit
  have distance := h.isizeInBounds laid start
  obtain ⟨low, high⟩ := h.start
  obtain ⟨low', high'⟩ : a.addr ≤ q.addr + ty.byteSize m.target ∧
    q.addr + ty.byteSize m.target ≤ a.stop := h.stop
  unfold Between at start stop
  refine ⟨offsetInBounds_eq_ok_iff.2 ⟨distance, ?_, ?_, rfl⟩, ?_⟩
  · rw [Target.addrInBounds_eq placed.one_le_ptrSize]
    exact congrArg Except.ok (decide_eq_true (by omega))
  · -- All bytes between the old address and the new one are in the allocation.
    have first : a.addr ≤ min q.addr (q.addr + d) := by omega
    have last : min q.addr (q.addr + d) + (max q.addr (q.addr + d) - min q.addr (q.addr + d)) ≤
        a.stop := by
      omega
    rw [dereferenceable, h.checkPtr_of_inside laid first last powerOfTwo_one (one_dvd _)]
    rfl
  · exact {
      found := h.found
      live := h.live
      provenance := h.provenance
      start := ⟨by show a.addr ≤ q.addr + d; omega, by show q.addr + d ≤ a.stop; omega⟩
      stop := by
        show a.addr ≤ q.addr + d + part.byteSize m.target ∧
          q.addr + d + part.byteSize m.target ≤ a.stop
        omega
      power
      aligned := Int.dvd_add (dvd.trans h.aligned) dvd' }

end Lies

/-- A local lies in its memory. -/
theorem Lies.of_houses {f : Frame} {name : String} (laid : m.Laid)
    (house : Houses m f name p place a) : m.Lies a p place where
  found := house.found
  live := house.live
  provenance := house.provenance
  start := by
    have placed := laid.placed a (mem_allocations_of_allocation house.found)
    have nonneg := placed.nonneg
    rw [house.base, Allocation.stop]
    exact ⟨le_refl _, by show a.addr ≤ a.addr + a.size; omega⟩
  stop := by
    have placed := laid.placed a (mem_allocations_of_allocation house.found)
    have nonneg := placed.nonneg
    rw [house.base, ← house.size, Allocation.stop]
    exact ⟨by show a.addr ≤ a.addr + a.size; omega, le_refl _⟩
  power := house.align ▸ (laid.placed a (mem_allocations_of_allocation house.found)).power
  aligned := by
    rw [house.base, ← house.align]
    exact (laid.placed a (mem_allocations_of_allocation house.found)).aligned

end Memory

namespace Machine

/-! ## Chains of projections -/

/-- A place expression goes from a local of a frame to a place of a type, by projections that there
are: to fields and variants that the type has, and to elements of arrays. -/
inductive Projects (f : Frame) (name : String) : PlaceExpr → Ty → Prop
  | slot {place : PlaceTy} (declared : f.localTy name = .ok place) :
      Projects f name (.var name) place.ty
  | field {root : PlaceExpr} {ty : Ty} {i : Int} {part : Field} (rooted : Projects f name root ty)
      (has : ty.fieldAt i = .ok part) : Projects f name (.field root i) part.ty
  | index {root : PlaceExpr} {elem : Ty} {count : Int} (i : ValueExpr)
      (rooted : Projects f name root (.array elem count)) : Projects f name (.index root i) elem
  | downcast {root : PlaceExpr} {e : EnumTy} {d : Int} {variant : Variant}
      (rooted : Projects f name root (.enum e)) (has : e.variantAt d = .ok variant) :
      Projects f name (.downcast root d) variant.ty

/-- Begun in this machine, a chain of projections comes to an index that fails with a fault when it
is evaluated, is no number, or is not that of an element. -/
inductive IndexFault (fault : Fault) : PlaceExpr → Machine → Prop
  | field {root : PlaceExpr} {i : Int} {m : Machine} (before : IndexFault fault root m) :
      IndexFault fault (.field root i) m
  | root {root : PlaceExpr} {i : ValueExpr} {m : Machine} (before : IndexFault fault root m) :
      IndexFault fault (.index root i) m
  | downcast {root : PlaceExpr} {d : Int} {m : Machine} (before : IndexFault fault root m) :
      IndexFault fault (.downcast root d) m
  | raised {root : PlaceExpr} {i : ValueExpr} {m n n' : Machine} {a : Pointer × PlaceTy}
      (reached : evalPlace root m = (.ok a, n)) (raises : evalValue i n = (.error fault, n')) :
      IndexFault fault (.index root i) m
  | noNumber {root : PlaceExpr} {i : ValueExpr} {m n n' : Machine} {a : Pointer × PlaceTy}
      {v : Value} {ty : Ty} (reached : evalPlace root m = (.ok a, n))
      (computed : evalValue i n = (.ok (v, ty), n')) (other : ∀ k, v ≠ .int k)
      (same : fault = .defect (.indexBy v)) : IndexFault fault (.index root i) m
  | outside {root : PlaceExpr} {i : ValueExpr} {m n n' : Machine} {q : Pointer} {elem ty : Ty}
      {count align k : Int} (reached : evalPlace root m = (.ok (q, ⟨.array elem count, align⟩), n))
      (computed : evalValue i n = (.ok (.int k, ty), n')) (beyond : ¬(0 ≤ k ∧ k < count))
      (same : fault = .undefined .indexOutOfBounds) : IndexFault fault (.index root i) m

variable {m m' n : Machine} {f : Frame} {name : String} {rest : List Frame} {p q : Pointer}
  {place : PlaceTy} {e : PlaceExpr} {ty : Ty} {fault : Fault}

/-- To evaluate an expression leaves a machine as it was, but for the bytes of its memory. -/
theorem outline_of_evalValue (numbered : m.store.memory.Numbered) {e : ValueExpr} {a : Value × Ty}
    (run : evalValue e m = (.ok a, m')) : m'.outline = m.outline :=
  ((evaluates_evalValue numbered (fun _ _ => trivial) (fun _ _ _ _ _ => trivial) e e.in_full).ok
    (.refl fun _ _ => trivial) run).1.outline

theorem memory_outline (same : m'.outline = m.outline) :
    m'.store.memory.outline = m.store.memory.outline := by
  have memory := congrArg (fun m : Machine => m.store.memory) same
  exact memory

/-- What an index that is a number is refused for. -/
theorem elementOffset_eq_error {elem : Ty} {count : Int} {i : Value}
    (h : (Ty.array elem count).elementOffset target i = .error fault) :
    (∃ k, i = .int k ∧ ¬(0 ≤ k ∧ k < count) ∧ fault = .undefined .indexOutOfBounds) ∨
      (∀ k, i ≠ .int k) ∧ fault = .defect (.indexBy i) := by
  cases i with
  | int k =>
      by_cases inside : 0 ≤ k ∧ k < count
      · simp [Ty.elementOffset, inside, bind, Except.bind, pure, Except.pure] at h
      · refine .inl ⟨k, rfl, inside, ?_⟩
        have refused : (decide (0 ≤ k) && decide (k < count)) = false := by
          simpa using inside
        simp only [Ty.elementOffset, refused, require, bind, Except.bind] at h
        exact (Except.error.inj h).symm
  | _ =>
      refine .inr ⟨?_, (Except.error.inj h).symm⟩
      rintro k ⟨⟩

/-- To go to an element, once its place and its index are known. -/
theorem evalPlace_index {root : PlaceExpr} {i : ValueExpr} {align : Int} {v : Value} {t : Ty}
    {n' : Machine} (run : evalPlace root m = (.ok (q, ⟨ty, align⟩), n))
    (computed : evalValue i n = (.ok (v, t), n')) :
    evalPlace (.index root i) m =
      (Action.ofExcept (ty.elementOffset n'.target v) >>= fun part =>
        offsetInBounds q part.1 >>= fun q' =>
          pure (q', (⟨part.2.1, restrictAlign align part.2.2⟩ : PlaceTy))) n' := by
  rw [evalPlace, Action.apply_bind_of_ok run]
  exact Action.apply_bind_of_ok computed _

/-! ## One projection -/

/-- What a chain of projections leaves behind that succeeds: a machine in which nothing but bytes has
changed, and a place of the type that lies in the memory of the local. -/
structure Reaches (m : Machine) (p : Pointer) (ty : Ty) (m' : Machine) (q : Pointer)
    (place : PlaceTy) : Prop where
  typed : place.ty = ty
  outline : m'.outline = m.outline
  lies : ∃ a, p.provenance = some a.id ∧ m'.store.memory.Lies a q place

namespace Reaches

variable {align : Int}

theorem laid (h : Reaches m p ty m' q place) (laid : m.store.memory.Laid) :
    m'.store.memory.Laid :=
  laid.of_outline_eq (memory_outline h.outline)

theorem target_eq (h : Reaches m p ty m' q place) : m'.target = m.target :=
  Memory.target_of_outline_eq (memory_outline h.outline)

/-- What is found stays where it is while an index is evaluated. -/
theorem of_outline_eq (h : Reaches m p ty m' q place) (same : n.outline = m'.outline) :
    Reaches m p ty n q place := by
  obtain ⟨a, owner, lies⟩ := h.lies
  obtain ⟨b, id, lies⟩ := lies.of_outline_eq (memory_outline same)
  exact ⟨h.typed, same.trans h.outline, b, id ▸ owner, lies⟩

/-- The pointer can be moved to a part of the place that begins and ends inside of it. -/
theorem offsetInBounds (h : Reaches m p ty m' q ⟨ty, align⟩) (laid : m.store.memory.Laid)
    {part : Ty} {d unit : Int} (start : Between (ty.byteSize m.target) d)
    (stop : Between (ty.byteSize m.target) (d + part.byteSize m.target)) (dvd : unit ∣ d) :
    ∃ q', Machine.offsetInBounds q d m' = (.ok q', m') ∧
      Reaches m p part m' q' ⟨part, restrictAlign align unit⟩ := by
  obtain ⟨a, owner, lies⟩ := h.lies
  obtain ⟨power, dvd₁, dvd₂⟩ := powerOfTwo_restrictAlign lies.power unit
  rw [← h.target_eq] at start stop
  have moved : _ ∧ m'.store.memory.Lies a _ ⟨part, restrictAlign align unit⟩ :=
    lies.project (h.laid laid) start stop power dvd₁ (dvd₂.trans dvd)
  exact ⟨_, Prod.ext moved.1 rfl, rfl, h.outline, a, owner, moved.2⟩

end Reaches

/-- A chain of projections that begins in a machine finds a place of a type in the memory of a local,
or it comes to an index that it is refused for. -/
inductive Arrives (m : Machine) (p : Pointer) (e : PlaceExpr) (ty : Ty) : Prop
  | found {q : Pointer} {place : PlaceTy} {n : Machine} (run : evalPlace e m = (.ok (q, place), n))
      (reaches : Reaches m p ty n q place) : Arrives m p e ty
  | refused {fault : Fault} {n : Machine} (run : evalPlace e m = (.error fault, n))
      (why : IndexFault fault e m) : Arrives m p e ty

namespace Arrives

variable {root : PlaceExpr}

/-- A local is where it is. -/
theorem slot (laid : m.store.memory.Laid) (stack : m.stack = f :: rest)
    (living : f.locals.find? name = some p) {a : Allocation}
    (house : Houses m.store.memory f name p place a) : Arrives m p (.var name) place.ty := by
  have run : evalPlace (.var name) m = (.ok (p, place), m) := by
    rw [evalPlace, localPlace, Action.apply_bind_of_ok (frame_eq_ok_iff.2 ⟨rfl, rest, stack⟩)]
    simp only [living, house.declared]
    rfl
  exact .found run ⟨rfl, rfl, a, house.provenance, .of_houses laid house⟩

/-- A field that there is can be gone to. -/
theorem field (h : Arrives m p root ty) (laid : m.store.memory.Laid) (snug : ty.Snug m.target)
    {i : Int} {part : Field} (has : ty.fieldAt i = .ok part) :
    Arrives m p (.field root i) part.ty := by
  cases h with
  | @refused fault n run why =>
      refine .refused (n := n) ?_ (.field why)
      rw [evalPlace, Action.apply_bind_of_error run]
  | @found q place n run reaches =>
      obtain ⟨ty, align⟩ := place
      obtain rfl := reaches.typed
      obtain ⟨start, stop⟩ := (Ty.within_of_fieldAt snug.fields_within has).between
      obtain ⟨q', moved, reaches⟩ := reaches.offsetInBounds laid start stop (dvd_refl _)
      refine .found ?_ reaches
      rw [evalPlace, Action.apply_bind_of_ok run]
      simp only [has]
      rw [Action.apply_bind_of_ok (Action.ofExcept_eq_iff.2 ⟨rfl, rfl⟩)]
      exact Action.apply_bind_of_ok moved _

/-- An element of an array can be gone to, if its index can be computed and is that of one. -/
theorem index {elem : Ty} {count : Int} (h : Arrives m p root (.array elem count))
    (laid : m.store.memory.Laid) (i : ValueExpr) : Arrives m p (.index root i) elem := by
  cases h with
  | @refused fault n run why =>
      refine .refused (n := n) ?_ (.root why)
      rw [evalPlace, Action.apply_bind_of_error run]
  | @found q place n run reaches =>
      obtain ⟨ty, align⟩ := place
      obtain rfl : ty = .array elem count := reaches.typed
      rcases computed : evalValue i n with ⟨fault | ⟨v, t⟩, n'⟩
      · refine .refused (n := n') ?_ (.raised run computed)
        rw [evalPlace, Action.apply_bind_of_ok run]
        exact Action.apply_bind_of_error computed _
      have numbered := (reaches.laid laid).numbered
      have reaches := reaches.of_outline_eq (outline_of_evalValue numbered computed)
      have evaluated := evalPlace_index run computed
      cases offset : (Ty.array elem count).elementOffset n'.target v with
      | error fault =>
          have failed : evalPlace (.index root i) m = (.error fault, n') := by
            rw [evaluated, offset]
            rfl
          obtain ⟨k, rfl, beyond, same⟩ | ⟨other, same⟩ := elementOffset_eq_error offset
          · exact .refused failed (.outside run computed beyond same)
          · exact .refused failed (.noNumber run computed other same)
      | ok answer =>
          obtain ⟨distance, elem', size⟩ := answer
          obtain ⟨_, k, ⟨⟩, nonneg, below, rfl, rfl⟩ := Ty.elementOffset_eq_ok offset
          rw [reaches.target_eq] at offset evaluated
          -- An element ends where the next one would begin.
          have next : k * elem.byteSize m.target + elem.byteSize m.target =
              (k + 1) * elem.byteSize m.target := by
            rw [Int.add_mul, Int.one_mul]
          have start : Between (elem.byteSize m.target * count) (k * elem.byteSize m.target) :=
            between_of_index nonneg (Int.le_of_lt below)
          have stop : Between (elem.byteSize m.target * count)
              (k * elem.byteSize m.target + elem.byteSize m.target) := by
            rw [next]
            exact between_of_index (by omega) below
          obtain ⟨q', moved, reaches⟩ :=
            reaches.offsetInBounds laid start stop (Dvd.intro_left k rfl)
          refine .found ?_ reaches
          rw [evaluated, offset]
          exact Action.apply_bind_of_ok moved _

/-- The payload of a variant that there is can be gone to, whatever the active one is. -/
theorem downcast {e : EnumTy} (h : Arrives m p root (.enum e)) (snug : (Ty.enum e).Snug m.target)
    {d : Int} {variant : Variant} (has : e.variantAt d = .ok variant) :
    Arrives m p (.downcast root d) variant.ty := by
  cases h with
  | @refused fault n run why =>
      refine .refused (n := n) ?_ (.downcast why)
      rw [evalPlace, Action.apply_bind_of_error run]
  | @found q place n run reaches =>
      obtain ⟨ty, align⟩ := place
      obtain rfl : ty = .enum e := reaches.typed
      have same : variant.ty.byteSize n.target = (Ty.enum e).byteSize n.target := by
        obtain ⟨k, -, at_⟩ := elementAt_eq_ok_iff.1 has
        rw [reaches.target_eq]
        exact snug.payloads_fill variant (List.mem_of_getElem? at_)
      obtain ⟨a, owner, lies⟩ := reaches.lies
      have stop : a.addr ≤ q.addr + (Ty.enum e).byteSize n.target ∧
        q.addr + (Ty.enum e).byteSize n.target ≤ a.stop := lies.stop
      rw [← same] at stop
      have lies : n.store.memory.Lies a q ⟨variant.ty, align⟩ := { lies with stop := stop }
      refine .found ?_ ⟨rfl, reaches.outline, a, owner, lies⟩
      rw [evalPlace, Action.apply_bind_of_ok run]
      simp only [has]
      rfl

end Arrives

/-- Every chain of projections from a local whose type is snug arrives. -/
theorem arrives_of_projects (laid : m.store.memory.Laid) (stack : m.stack = f :: rest)
    (living : f.locals.find? name = some p) {a : Allocation}
    (house : Houses m.store.memory f name p place a) (snug : place.ty.All (Ty.Snug m.target))
    (chain : Projects f name e ty) : ty.All (Ty.Snug m.target) ∧ Arrives m p e ty := by
  induction chain with
  | slot declared =>
      obtain rfl := Except.ok.inj (house.declared.symm.trans declared)
      exact ⟨snug, .slot laid stack living house⟩
  | field _ has ih => exact ⟨ih.1.of_fieldAt has, ih.2.field laid ih.1.here has⟩
  | index i _ ih => exact ⟨ih.1.elem, ih.2.index laid i⟩
  | downcast _ has ih => exact ⟨ih.1.of_variantAt has, ih.2.downcast ih.1.here has⟩

/-! ## Reachable machines -/

variable {program : Program} {chooser : Chooser} {predictor : Predictor}

/-- Projections of a local that lives are aligned and in bounds: in a reachable state of a program
whose locals have snug types, a chain of projections fails only where one of its indices does or is
not that of an element; and what it finds lies in the memory of the local with both ends, at an
address that is a multiple of its alignment, so that it can be loaded from and stored to. -/
theorem projected_of_reachable (h : Reachable program target chooser predictor m)
    (declared : program.Declares (Ty.All (Ty.Snug target))) (stack : m.stack = f :: rest)
    (living : f.locals.find? name = some p) (chain : Projects f name e ty) :
    (∀ fault m', evalPlace e m = (.error fault, m') → IndexFault fault e m) ∧
    ∀ q place m', evalPlace e m = (.ok (q, place), m') → place.ty = ty ∧
      q.provenance = p.provenance ∧ ∃ a, m'.store.memory.Lies a q place ∧
        m'.store.memory.checkPtr q (place.byteSize target) place.align =
          .ok (if place.byteSize target = 0 then none else some a) := by
  have same : m.target = target := h.target_eq
  have hf : f ∈ m.stack := stack ▸ List.mem_cons_self
  obtain ⟨i, hi⟩ := List.mem_iff_getElem?.1 hf
  obtain ⟨place₀, a₀, house⟩ := h.housed.houses ⟨hi, living⟩
  have snug := h.declares declared hf house.declared
  rw [← same] at snug
  obtain ⟨-, arrives⟩ := arrives_of_projects h.laid stack living house snug chain
  constructor
  · intro fault m' run
    cases arrives with
    | found run' _ => cases run'.symm.trans run
    | refused run' why =>
        obtain ⟨failed, -⟩ := Prod.mk.inj (run'.symm.trans run)
        exact Except.error.inj failed ▸ why
  · intro q place m' run
    cases arrives with
    | refused run' _ => cases run'.symm.trans run
    | @found q' place' n run' reaches =>
        obtain ⟨answer, rfl⟩ := Prod.mk.inj (run'.symm.trans run)
        obtain ⟨rfl, rfl⟩ := Prod.mk.inj (Except.ok.inj answer)
        obtain ⟨a, owner, lies⟩ := reaches.lies
        have granted := lies.checkPtr (reaches.laid h.laid)
        have target_eq : n.store.memory.target = target := reaches.target_eq.trans same
        rw [target_eq] at granted
        exact ⟨reaches.typed, lies.provenance.trans owner.symm, a, lies, granted⟩

/-- A row of three numbers, which begins at the third byte of what it is part of. -/
def row : Field := ⟨2, .array (.int ⟨false, 2⟩) 3⟩

/-- A number, and behind it the row. -/
def numberAndRow : Ty := .tuple [⟨0, .int ⟨false, 1⟩⟩, row] 8

/-- The number of the row at an index. -/
def entryOfRow (i : Int) : PlaceExpr :=
  .index (.field (.var "x") 1) (.int i (.int ⟨false, 1⟩))

theorem projects_entryOfRow (declared : f.localTy "x" = .ok ⟨numberAndRow, 1⟩) (i : Int) :
    Projects f "x" (entryOfRow i) (.int ⟨false, 2⟩) := by
  have second : numberAndRow.fieldAt 1 = .ok row := rfl
  have chain : Projects f "x" (.field (.var "x") 1) row.ty := .field (.slot declared) second
  exact .index _ chain

/-- The last entry of the row ends where the local does. There is none behind it, and nothing else
would be wrong with that. -/
theorem projected_entryOfRow :
    (evalPlace (entryOfRow 2) (whileLive numberAndRow)).1 =
        .ok (⟨9, some ⟨2⟩⟩, ⟨.int ⟨false, 2⟩, 1⟩) ∧
      (∃ a, (evalPlace (entryOfRow 2) (whileLive numberAndRow)).2.store.memory.Lies a
        ⟨9, some ⟨2⟩⟩ ⟨.int ⟨false, 2⟩, 1⟩) ∧
      (evalPlace (entryOfRow 3) (whileLive numberAndRow)).1 =
        .error (.undefined .indexOutOfBounds) ∧
      IndexFault (.undefined .indexOutOfBounds) (entryOfRow 3) (whileLive numberAndRow) := by
  have reachable : Reachable (holding numberAndRow) ⟨8, .little⟩ inTurn .standard
      (whileLive numberAndRow) := .next (.begun rfl) rfl
  have byte : (Ty.int ⟨false, 1⟩).All (Ty.Snug ⟨8, .little⟩) :=
    .of_parts_eq_nil rfl ⟨trivial, trivial⟩
  have numbers : row.ty.All (Ty.Snug ⟨8, .little⟩) :=
    .intro ⟨trivial, trivial⟩
      (List.forall_mem_singleton.2 (.of_parts_eq_nil rfl ⟨trivial, trivial⟩))
  have fields : numberAndRow.FieldsWithin ⟨8, .little⟩ :=
    List.forall_mem_cons.2 ⟨⟨⟨by decide, by decide⟩, by decide, by decide⟩,
      List.forall_mem_singleton.2 ⟨⟨by decide, by decide⟩, by decide, by decide⟩⟩
  have snug : numberAndRow.All (Ty.Snug ⟨8, .little⟩) :=
    .intro ⟨fields, trivial⟩ (List.forall_mem_cons.2 ⟨byte, List.forall_mem_singleton.2 numbers⟩)
  have declared := declares_holding snug (.of_parts_eq_nil rfl ⟨nofun, trivial⟩)
  have projected (i : Int) :=
    projected_of_reachable reachable declared rfl rfl (projects_entryOfRow rfl i)
  refine ⟨rfl, ?_, rfl, ?_⟩
  · obtain ⟨-, -, a, lies, -⟩ := (projected 2).2 _ _ _ rfl
    exact ⟨a, lies⟩
  · exact (projected 3).1 _ _ rfl

/-- A row of less than no numbers. It begins behind the tuple that it is part of, and ends in it. -/
def farRow : Field := ⟨100, .array (.int ⟨false, 1⟩) (-100)⟩

/-- What is part of a type has to begin inside of it, even if it has less than no bytes: the projection
to a field that begins behind its tuple, and does not end behind it, leaves the local. -/
theorem leaves_farRow :
    (0 ≤ farRow.offset ∧ farRow.offset + farRow.ty.byteSize ⟨8, .little⟩ ≤ 1) ∧
      Reachable (holding (.tuple [farRow] 1)) ⟨8, .little⟩ inTurn .standard
        (whileLive (.tuple [farRow] 1)) ∧
      (∃ f, (whileLive (.tuple [farRow] 1)).stack = [f] ∧
        f.locals.find? "x" = some ⟨3, some ⟨2⟩⟩ ∧
        Projects f "x" (.field (.var "x") 0) farRow.ty) ∧
      (evalPlace (.field (.var "x") 0) (whileLive (.tuple [farRow] 1))).1 =
        .error (.undefined .outOfBounds) :=
  have first : (Ty.tuple [farRow] 1).fieldAt 0 = .ok farRow := rfl
  ⟨⟨by decide, by decide⟩, .next (.begun rfl) rfl, ⟨_, rfl, rfl, .field (.slot rfl) first⟩, rfl⟩

end Machine

end AbstractMachine
