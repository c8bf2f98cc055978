/-
# AbstractMachine.Proofs.Machine.Validation — a place is validated by rewriting it

To validate a place is to load its value, to ask for its safe pointers, and to store it back. Nothing
is stored unless all was found in order, and then the store is granted as the load was; so what makes
it fail is the load or a pointer (`Memory.Rewrites.checks`). Since the value comes back from its bytes,
the place holds it as before. What was in its bytes besides is lost (`Memory.Validated`), and after that
there is nothing left to be lost: the bytes are those of the value.

All that is needed of the type is that its values and their bytes stand for each other (`Ty.Lawful`).
Which names occur in memory matters for the pointers in the value alone. The pointer to the place comes
from an expression, and it may name what is no allocation (`validate_stray`).
-/
import AbstractMachine.Proofs.Machine.Foundation
import AbstractMachine.Proofs.Machine.Tagging
import AbstractMachine.Proofs.Memory.Retagging
import AbstractMachine.Proofs.Representation.Monotone
import AbstractMachine.Proofs.Representation.Reencoding
import AbstractMachine.Proofs.Representation.RoundTrip

namespace AbstractMachine

variable {target : Target}

/-! ## Types whose values and bytes stand for each other -/

namespace Ty

/-- A type at which any bytes can be asked for a value, values come back from their bytes, and bytes
from their value, but for what it does not hold of them. -/
structure Lawful (target : Target) (ty : Ty) : Prop where
  aligned : ty.Every PointeeAligned
  named : ty.Every VariantsNamed
  restores : ty.Restores target
  reencodes : ∀ data v, ty.decode target data = .ok (some v) →
    ∃ bytes, ty.encode target v = .ok bytes ∧ AbsByte.leAll bytes data = true

theorem lawful_of_sound {ty : Ty} (width : 1 ≤ target.ptrSize) (sound : ty.Every (Sound target))
    (coherent : ty.Every (Coherent target)) (aligned : ty.Every PointeeAligned)
    (named : ty.Every VariantsNamed) : ty.Lawful target where
  aligned := aligned
  named := named
  restores := restores_of_sound width sound
  reencodes data v decoded := by
    have wellFormed := wellFormed_of_decode (coherent.imp fun _ c => c.int_sized)
      (coherent.imp fun _ c => c.counted)
      (coherent.imp fun _ c => ⟨c.chunks_sized, c.chunks_inside⟩) decoded
    obtain ⟨bytes, made⟩ := exists_bytes (coherent.imp fun _ c => c.tags_fit) wellFormed
    exact ⟨bytes, encode_eq_ok_iff.2 ⟨wellFormed, made⟩, leAll_of_decode coherent decoded made⟩

end Ty

/-! ## Memory -/

namespace Memory

variable {m m' : Memory} {p : Pointer} {place : PlaceTy} {v : Value}

/-- Load the value of a place, retag it, and store it back. -/
def validate (m : Memory) (p : Pointer) (place : PlaceTy) : Except Fault Memory := do
  let v ← m.typedLoad p place
  let v ← m.retagValue place.ty v
  m.typedStore p v place

/-- All safe pointers that are found in a value can be dereferenced. -/
def Supports (m : Memory) (ty : Ty) (v : Value) : Prop :=
  ∀ q pointee, ty.Shows v q pointee → m.dereferenceable q pointee.size pointee.align = .ok ()

/-- The bytes that a place consists of. -/
def PlaceBytes (p : Pointer) (size : Int) (k : Nat) (addr : Int) : Prop :=
  p.provenance = some ⟨k⟩ ∧ p.addr ≤ addr ∧ addr < p.addr + size

/-- What is left of memory when a place was validated. -/
structure Validated (m : Memory) (p : Pointer) (place : PlaceTy) (m' : Memory) : Prop where
  /-- The place holds the value that it held before, in the bytes of that value. -/
  value : ∃ v, m.typedLoad p place = .ok v ∧ m'.typedLoad p place = .ok v ∧
    m'.load p (place.byteSize m.target) place.align = place.ty.encode m.target v
  /-- The bytes of the place are at most as defined as before. -/
  below : ∃ old new, m.load p (place.byteSize m.target) place.align = .ok old ∧
    m'.load p (place.byteSize m.target) place.align = .ok new ∧ AbsByte.leAll new old = true
  /-- All other bytes are the same. -/
  beside : m.Agree (PlaceBytes p (place.byteSize m.target)) m'
  /-- To validate it again changes nothing. -/
  again : m'.validate p place = .ok m'

/-- The value of a place is found in its bytes and stored back, in bytes that stand for it. -/
structure Rewrites (m : Memory) (p : Pointer) (place : PlaceTy) (v : Value)
    (old new : List AbsByte) (m' : Memory) : Prop where
  read : m.load p (place.byteSize m.target) place.align = .ok old
  found : place.ty.decode m.target old = .ok (some v)
  encoded : place.ty.encode m.target v = .ok new
  decoded : place.ty.decode m.target new = .ok (some v)
  below : AbsByte.leAll new old = true
  written : m.store p new place.align = .ok m'

namespace Rewrites

variable {old new : List AbsByte}

theorem loaded (h : m.Rewrites p place v old new m') : m.typedLoad p place = .ok v :=
  typedLoad_eq_ok_iff.2 ⟨old, h.read, h.found⟩

theorem stored (h : m.Rewrites p place v old new m') : m.typedStore p v place = .ok m' :=
  typedStore_eq_ok_iff.2 ⟨new, h.encoded, h.written⟩

theorem length (h : m.Rewrites p place v old new m') :
    (new.length : Int) = place.byteSize m.target :=
  Ty.length_of_decode h.decoded

/-- Between the load and the store, the place is validated by asking for the pointers in its value. -/
theorem checks (h : m.Rewrites p place v old new m') :
    Checks (m.validate p place) m' fun c => ∃ q pointee, place.ty.Shows v q pointee ∧
      c = m.dereferenceable q pointee.size pointee.align := by
  rw [validate, h.loaded]
  exact (checks_retagValue (Ty.encode_eq_ok_iff.1 h.encoded).1).andThen h.stored

end Rewrites

section Lawful

variable (lawful : place.ty.Lawful m.target)
include lawful

/-- What was loaded can be stored back. -/
theorem exists_rewrites (loaded : m.typedLoad p place = .ok v) :
    ∃ old new m', m.Rewrites p place v old new m' := by
  obtain ⟨old, read, decoded⟩ := typedLoad_eq_ok_iff.1 loaded
  obtain ⟨new, encoded, below⟩ := lawful.reencodes old v decoded
  obtain ⟨new', encoded', restored⟩ := lawful.restores v (Ty.encode_eq_ok_iff.1 encoded).1
  obtain rfl := Except.ok.inj (encoded.symm.trans encoded')
  have length : (new.length : Int) = place.byteSize m.target := Ty.length_of_decode restored
  obtain ⟨m', written⟩ := exists_store_of_load (length ▸ read)
  exact ⟨old, new, m', read, decoded, encoded, restored, below, written⟩

/-- A place is validated if its value can be loaded and the pointers in it can be dereferenced. -/
theorem validate_eq_ok_iff : m.validate p place = .ok m' ↔
    ∃ v, m.typedLoad p place = .ok v ∧ m.Supports place.ty v ∧ m.typedStore p v place = .ok m' := by
  cases loaded : m.typedLoad p place with
  | error f =>
      rw [validate, loaded]
      constructor
      · rintro ⟨⟩
      · rintro ⟨_, ⟨⟩, _⟩
  | ok v =>
      obtain ⟨_, _, last, rewrites⟩ := exists_rewrites lawful loaded
      rw [rewrites.checks.eq_ok_iff]
      constructor
      · rintro ⟨rfl, passed⟩
        exact ⟨v, rfl, fun q pointee shown => passed _ ⟨q, pointee, shown, rfl⟩, rewrites.stored⟩
      · rintro ⟨_, ⟨⟩, supports, stored⟩
        refine ⟨Except.ok.inj (stored.symm.trans rewrites.stored), ?_⟩
        rintro _ ⟨q, pointee, shown, rfl⟩
        exact supports q pointee shown

theorem exists_validate_iff : (∃ m', m.validate p place = .ok m') ↔
    ∃ v, m.typedLoad p place = .ok v ∧ m.Supports place.ty v := by
  constructor
  · rintro ⟨m', done⟩
    obtain ⟨v, loaded, supports, -⟩ := (validate_eq_ok_iff lawful).1 done
    exact ⟨v, loaded, supports⟩
  · rintro ⟨v, loaded, supports⟩
    obtain ⟨_, _, m', rewrites⟩ := exists_rewrites lawful loaded
    exact ⟨m', (validate_eq_ok_iff lawful).2 ⟨v, loaded, supports, rewrites.stored⟩⟩

/-- If all names in memory are those of allocations, a place fails to be validated in no other way than
by behaviour that is undefined, unless the pointer to it names no allocation. -/
theorem failsIn_validate (aligned : place.align ≠ 0)
    (named : ∀ id, m.Holds id → ∃ a, m.allocation id = .ok a) :
    FailsIn (m.Denies fun id => p.provenance = some id) (m.validate p place) := by
  cases loaded : m.typedLoad p place with
  | error f =>
      rw [validate, loaded]
      refine .error (FailsIn.typedLoad (fun size => ?_) (fun data => ?_) f loaded)
      · refine .checkPtr (failsIn_isAligned_of_ne_zero aligned _) ?_
        exact fun id same f missing => .inr ⟨id, same, missing⟩
      · obtain ⟨o, decoded⟩ := Ty.exists_decode m.target lawful.aligned lawful.named data
        rw [decoded]
        exact .ok o
  | ok v =>
      obtain ⟨_, _, _, rewrites⟩ := exists_rewrites lawful loaded
      refine rewrites.checks.failsIn ?_
      rintro _ ⟨q, pointee, shown, rfl⟩
      have positive := shown.one_le_align lawful.aligned
      refine .dereferenceable (.checkPtr (failsIn_isAligned_of_ne_zero (by omega) _) fun id same => ?_)
      obtain ⟨a, found⟩ := named id (holds_of_typedLoad loaded (shown.carries same))
      rw [found]
      exact .ok a

/-- The value stays, its bytes lose what it does not hold, and no others change. -/
theorem validated_of_validate (numbered : m.Numbered) (done : m.validate p place = .ok m') :
    m.Validated p place m' := by
  obtain ⟨v, loaded, supports, stored⟩ := (validate_eq_ok_iff lawful).1 done
  obtain ⟨old, new, m₁, rewrites⟩ := exists_rewrites lawful loaded
  obtain rfl : m₁ = m' := Except.ok.inj (rewrites.stored.symm.trans stored)
  have outline := outline_of_store numbered rewrites.written
  have same := target_of_outline_eq outline
  have later := load_of_store numbered rewrites.written
  rw [rewrites.length] at later
  have found : m₁.typedLoad p place = .ok v :=
    typedLoad_eq_ok_iff.2 ⟨new, by rwa [same], same ▸ rewrites.decoded⟩
  refine ⟨⟨v, loaded, found, later.trans rewrites.encoded.symm⟩,
    ⟨old, new, rewrites.read, later, rewrites.below⟩, ?_, ?_⟩
  · rw [← rewrites.length]
    exact agree_of_store numbered rewrites.written
  · refine (validate_eq_ok_iff (same ▸ lawful)).2 ⟨v, found, ?_, ?_⟩
    · exact fun q pointee shown => dereferenceable_of_outline_eq outline (supports q pointee shown)
    · exact typedStore_eq_ok_iff.2
        ⟨new, same ▸ rewrites.encoded, store_again numbered rewrites.written⟩

end Lawful

end Memory

/-! ## Programs -/

namespace Machine

variable {s s₀ : Machine} {root : PlaceExpr} {p : Pointer} {place : PlaceTy}

/-- To ask memory and then to change it is a single change. -/
theorem onStore_ask_bind_change {α : Type} (f : Memory → Except Fault α)
    (g : α → Memory → Except Fault Memory) :
    (onStore (Store.ask f) >>= fun a => onStore (Store.change (g a))) =
      onStore (Store.change fun m => f m >>= fun a => g a m) := by
  funext s
  have asked : onStore (Store.ask f) s = (f s.store.memory, s) := rfl
  rw [Action.apply_bind, asked]
  cases found : f s.store.memory with
  | error e => exact (onStore_change_of_error (by rw [found]; rfl)).symm
  | ok a =>
      dsimp only
      simp only [onStore, Store.change, Action.zoom, Action.change, found]
      rfl

/-- A statement that validates a place is such a change. -/
theorem execute_validate (run : evalPlace root s₀ = (.ok (p, place), s)) :
    execute (.validate root) s₀ = onStore (Store.change fun m => m.validate p place) s := by
  rw [execute, Action.apply_bind_of_ok run]
  simp only [Store.typedLoad, Store.typedStore, onStore_ask_bind_change]
  rfl

/-- Validating a place checks the safe pointers in it and loses definedness at most, in every memory
that there can be and whose names are those of allocations. It succeeds exactly if the value can be
loaded and its safe pointers can be dereferenced. Otherwise behaviour is undefined, or the pointer to
the place names no allocation, and nothing was changed. On success only the bytes of the place have
changed, and to validate the place again, from whatever expression, changes nothing. -/
theorem validates_of_reached (reached : Memory.Reached target s.store.memory)
    (named : ∀ id, s.store.memory.Holds id → ∃ a, s.store.memory.allocation id = .ok a)
    (lawful : place.ty.Lawful target) (aligned : place.align ≠ 0)
    (run : evalPlace root s₀ = (.ok (p, place), s)) :
    ((∃ s', execute (.validate root) s₀ = (.ok (), s')) ↔ ∃ v,
      s.store.memory.typedLoad p place = .ok v ∧ s.store.memory.Supports place.ty v) ∧
    (∀ f s', execute (.validate root) s₀ = (.error f, s') →
      s' = s ∧ s.store.memory.Denies (fun id => p.provenance = some id) f) ∧
    ∀ s', execute (.validate root) s₀ = (.ok (), s') →
      ∃ m', s' = s.upon m' ∧ s.store.memory.Validated p place m' ∧
        ∀ root' s₁ s₂, evalPlace root' s₁ = (.ok (p, place), s₂) → s₂.store.memory = m' →
          execute (.validate root') s₁ = (.ok (), s₂) := by
  obtain rfl := reached.target_eq
  rw [execute_validate run]
  refine ⟨?_, fun f s' failed => ?_, fun s' done => ?_⟩
  · rw [← Memory.exists_validate_iff lawful]
    constructor
    · rintro ⟨_, done⟩
      obtain ⟨m', done, -⟩ := onStore_change_iff_upon.1 done
      exact ⟨m', done⟩
    · rintro ⟨m', done⟩
      exact ⟨_, onStore_change_of_ok done⟩
  · obtain ⟨failed, rfl⟩ := onStore_change_eq_error_iff.1 failed
    exact ⟨rfl, Memory.failsIn_validate lawful aligned named f failed⟩
  · obtain ⟨m', changed, rfl⟩ := onStore_change_iff_upon.1 done
    have validated := Memory.validated_of_validate lawful reached.laid.numbered changed
    refine ⟨m', rfl, validated, fun root' s₁ s₂ run' same => ?_⟩
    subst same
    rw [execute_validate run', onStore_change_of_ok validated.again]

/-- A reference that may be absent and a row of numbers are lawful. -/
theorem lawful_referenceAndRow : referenceAndRow.Lawful ⟨2, .little⟩ := by
  refine Ty.lawful_of_sound (by decide) every_sound_referenceAndRow ?_ ?_ ?_
  · have number : (Ty.int ⟨false, 2⟩).Every (Ty.Coherent ⟨2, .little⟩) :=
      .intro (Ty.coherent_int_iff.2 (by decide)) nofun
    have numbers : row.ty.Every (Ty.Coherent ⟨2, .little⟩) :=
      .intro (Ty.coherent_array_iff.2 (by decide)) (List.forall_mem_singleton.2 number)
    exact .intro (Ty.coherent_tuple_iff.2 every_sound_referenceAndRow.here.fields_inside)
      (List.forall_mem_cons.2 ⟨Ty.coherent_nullable (by decide), List.forall_mem_singleton.2 numbers⟩)
  · have numbers : row.ty.Every Ty.PointeeAligned :=
      .intro trivial (List.forall_mem_singleton.2 (.intro trivial nofun))
    have reference : (Ty.optionRef ⟨2, .little⟩).Every Ty.PointeeAligned :=
      Ty.every_nullable trivial trivial trivial fun p hp => by
        obtain rfl := Option.some.inj hp
        decide
    exact .intro trivial (List.forall_mem_cons.2 ⟨reference, List.forall_mem_singleton.2 numbers⟩)
  · have numbers : row.ty.Every Ty.VariantsNamed :=
      .intro trivial (List.forall_mem_singleton.2 (.intro trivial nofun))
    have reference : (Ty.optionRef ⟨2, .little⟩).Every Ty.VariantsNamed :=
      Ty.every_nullable Ty.variantsNamed_nullable trivial trivial trivial
    exact .intro trivial (List.forall_mem_cons.2 ⟨reference, List.forall_mem_singleton.2 numbers⟩)

/-- The bytes of a reference to themselves and three numbers, all of which carry its name. -/
def namedThroughout : Memory :=
  (Memory.fresh ⟨2, .little⟩ fun _ _ => .ok 16).afterAll [.allocate 8 2 .stack,
    .store ⟨16, some ⟨0⟩⟩ (AbsByte.ofData [16, 0, 2, 0, 3, 0, 4, 0] (some ⟨0⟩)) 2]

theorem exists_of_holds_namedThroughout (id : AllocId) (h : namedThroughout.Holds id) :
    ∃ a, namedThroughout.allocation id = .ok a := by
  obtain ⟨a, ha, carry⟩ := h
  have all : ∀ a ∈ namedThroughout.allocations,
      a.contents = AbsByte.ofData [16, 0, 2, 0, 3, 0, 4, 0] (some ⟨0⟩) :=
    List.forall_mem_singleton.2 rfl
  rw [all a ha] at carry
  obtain rfl := Option.some.inj carry.of_ofData
  exact ⟨_, rfl⟩

/-- The reference can be dereferenced. The numbers lose the name that they have no use for, and only
they do; after that, nothing is lost. -/
theorem validates_referenceAndRow :
    let root := placeAt ⟨16, some ⟨0⟩⟩ referenceAndRow 2
    execute (.validate root) (resting namedThroughout) = (.ok (), resting selfAndNumbers) ∧
      namedThroughout.Supports referenceAndRow
        (.tuple [.nonnull ⟨16, some ⟨0⟩⟩, .tuple [.int 2, .int 3, .int 4]]) ∧
      namedThroughout.Validated ⟨16, some ⟨0⟩⟩ ⟨referenceAndRow, 2⟩ selfAndNumbers ∧
      execute (.validate root) (resting selfAndNumbers) = (.ok (), resting selfAndNumbers) := by
  intro root
  have done : execute (.validate root) (resting namedThroughout) =
    (.ok (), resting selfAndNumbers) := rfl
  have reached : Memory.Reached ⟨2, .little⟩ (resting namedThroughout).store.memory := .calls _ _
  have run : evalPlace root (resting namedThroughout) =
    (.ok (⟨16, some ⟨0⟩⟩, ⟨referenceAndRow, 2⟩), resting namedThroughout) := rfl
  obtain ⟨granted, -, after⟩ := validates_of_reached reached exists_of_holds_namedThroughout
    lawful_referenceAndRow (by decide) run
  obtain ⟨v, loaded, supports⟩ := granted.1 ⟨_, done⟩
  have found : namedThroughout.typedLoad ⟨16, some ⟨0⟩⟩ ⟨referenceAndRow, 2⟩ =
    .ok (.tuple [.nonnull ⟨16, some ⟨0⟩⟩, .tuple [.int 2, .int 3, .int 4]]) := rfl
  obtain rfl := Except.ok.inj (loaded.symm.trans found)
  obtain ⟨m', same, validated, again⟩ := after _ done
  obtain rfl : selfAndNumbers = m' := congrArg (fun s : Machine => s.store.memory) same
  exact ⟨done, supports, validated, again root _ _ rfl rfl⟩

/-- A pointer that was made up names no allocation. A place there cannot be validated, and what is said
of it is not that behaviour is undefined. -/
theorem validate_stray :
    let s := resting (Memory.fresh .standard fun _ _ => .ok 8)
    let root := placeAt ⟨16, some ⟨99⟩⟩ (.int ⟨false, 1⟩) 1
    (Memory.Reached .standard s.store.memory ∧
      (∀ id, s.store.memory.Holds id → ∃ a, s.store.memory.allocation id = .ok a) ∧
      (Ty.int ⟨false, 1⟩).Lawful .standard ∧
      evalPlace root s = (.ok (⟨16, some ⟨99⟩⟩, ⟨.int ⟨false, 1⟩, 1⟩), s)) ∧
    ∃ f, execute (.validate root) s = (.error f, s) ∧ ¬ f.IsUndefined := by
  intro s root
  have sound : (Ty.int ⟨false, 1⟩).Every (Ty.Sound .standard) := .intro Ty.sound_int nofun
  have coherent : (Ty.int ⟨false, 1⟩).Every (Ty.Coherent .standard) :=
    .intro (Ty.coherent_int_iff.2 (by decide)) nofun
  refine ⟨⟨.calls _ [], ?_, ?_, rfl⟩, .defect (.notAnAllocation ⟨99⟩), rfl, id⟩
  · rintro id ⟨a, ⟨⟩, -⟩
  · exact Ty.lawful_of_sound (by decide) sound coherent (.intro trivial nofun) (.intro trivial nofun)

end Machine

end AbstractMachine
