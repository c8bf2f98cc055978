/-
# AbstractMachine.Proofs.Machine.Tagging — setting a discriminant

A program that builds a variant in place stores the payload first, at the place of the downcast, and
sets the discriminant after that. That this is the same as to store the variant is shown here for
the statements of programs: they succeed for the same values, and leave the same machine
(`Tagged.parts`). To set a discriminant alone changes the bytes of the tag and nothing else, even
where it fails half way, and where it is done a second time nothing changes at all.

What the bytes of a tag are is settled in `AbstractMachine.Proofs.Memory.Tagging`. A machine adds
the expression for the place, which is evaluated for each of the parts anew, in memory that has
changed in between. So the expression has to be one that finds its place whatever the bytes are
(`Finds`).
-/
import AbstractMachine.Proofs.Memory.Tagging

namespace AbstractMachine

namespace Machine

variable {m n : Machine} {root : PlaceExpr} {p : Pointer} {place : PlaceTy} {e : EnumTy} {align : Int}
  {i : Int} {v : Value} {variant : Variant}

/-! ## Other bytes -/

/-- A machine upon other memory, of which nothing was noted. -/
def upon (m : Machine) (memory : Memory) : Machine :=
  { m with store.memory := memory }

theorem onStore_change_iff_upon {f : Memory → Except Fault Memory} {u : Unit} :
    onStore (Store.change f) m = (.ok u, n) ↔
      ∃ memory, f m.store.memory = .ok memory ∧ n = m.upon memory :=
  onStore_change_eq_ok_iff

theorem apply_offsetInBounds (p : Pointer) (d : Int) (m : Machine) :
    offsetInBounds p d m = (m.store.memory.offsetInBounds p d, m) :=
  rfl

/-! ## Expressions that find their place -/

/-- An expression yields a place and changes nothing, whatever bytes there are in memory. -/
def Finds (m : Machine) (root : PlaceExpr) (p : Pointer) (place : PlaceTy) : Prop :=
  ∀ memory : Memory, memory.outline = m.store.memory.outline →
    evalPlace root (m.upon memory) = (.ok (p, place), m.upon memory)

/-- Every place has such an expression. -/
theorem finds_placeAt (m : Machine) (p : Pointer) (ty : Ty) (align : Int) :
    m.Finds (placeAt p ty align) p ⟨ty, align⟩ :=
  fun _ _ => rfl

namespace Finds

theorem run (finds : m.Finds root p place) : evalPlace root m = (.ok (p, place), m) :=
  finds m.store.memory rfl

/-- The place of a payload is found like that of its enum. -/
theorem downcast (finds : m.Finds root p ⟨.enum e, align⟩) (has : e.variantAt i = .ok variant) :
    m.Finds (.downcast root i) p ⟨variant.ty, align⟩ :=
  fun memory same => evalPlace_downcast (finds memory same) has

theorem upon (finds : m.Finds root p place) {memory : Memory}
    (same : memory.outline = m.store.memory.outline) : (m.upon memory).Finds root p place :=
  fun memory' same' => finds memory' (same'.trans same)

end Finds

/-! ## The two ways -/

/-- Store a value to the place of an expression, as an assignment does once it has the value. -/
def storeAt (root : PlaceExpr) (v : Value) : Action Machine Unit := do
  let (p, place) ← evalPlace root
  onStore (Store.typedStore p v place)

/-- Store a payload, and then set the discriminant. -/
def storeInParts (root : PlaceExpr) (i : Int) (v : Value) : Action Machine Unit := do
  storeAt (.downcast root i) v
  execute (.setDiscriminant root i)

theorem storeAt_eq_ok_iff (finds : m.Finds root p place) :
    storeAt root v m = (.ok (), n) ↔
      ∃ memory, m.store.memory.typedStore p v place = .ok memory ∧ n = m.upon memory := by
  rw [storeAt, Action.apply_bind_of_ok finds.run]
  exact onStore_change_iff_upon

/-- A machine stores the integers of a tag as its memory does. -/
theorem storeTag_eq_ok_iff {ws : List TagWrite} :
    storeTag p align ws m = (.ok (), n) ↔ ∃ memory,
      Memory.storeTag p align ws m.store.memory = .ok memory ∧ n = m.upon memory := by
  induction ws generalizing m with
  | nil =>
      rw [storeTag, Action.pure_eq_ok_iff]
      constructor
      · rintro ⟨-, rfl⟩
        exact ⟨n.store.memory, rfl, rfl⟩
      · rintro ⟨_, ⟨⟩, rfl⟩
        exact ⟨rfl, rfl⟩
  | cons w ws ih =>
      rw [storeTag]
      simp only [Action.bind_eq_ok_iff, Memory.storeTag_cons_eq_ok_iff, apply_offsetInBounds]
      constructor
      · rintro ⟨q, _, first, _, _, second, rest⟩
        obtain ⟨moved, rfl⟩ := Prod.mk.inj first
        obtain ⟨memory, written, rfl⟩ := onStore_change_iff_upon.1 second
        obtain ⟨last, others, rfl⟩ := ih.1 rest
        exact ⟨last, ⟨q, memory, moved, written, others⟩, rfl⟩
      · rintro ⟨last, ⟨q, memory, moved, written, others⟩, rfl⟩
        refine ⟨q, m, Prod.ext moved rfl, (), m.upon memory, ?_, ?_⟩
        · exact onStore_change_iff_upon.2 ⟨memory, written, rfl⟩
        · exact ih.2 ⟨last, others, rfl⟩

/-- To set a discriminant is to store the tag of its variant. -/
theorem execute_setDiscriminant (finds : m.Finds root p ⟨.enum e, align⟩)
    (has : e.variantAt i = .ok variant) :
    execute (.setDiscriminant root i) m = storeTag p align variant.tagger m := by
  rw [execute, Action.apply_bind_of_ok finds.run]
  simp only [has]
  exact Action.apply_bind_of_ok (Action.ofExcept_eq_iff.2 ⟨rfl, rfl⟩) _

/-- There is no tag for what is no variant. -/
theorem execute_setDiscriminant_of_error {f : Fault} (finds : m.Finds root p ⟨.enum e, align⟩)
    (none : e.variantAt i = .error f) : execute (.setDiscriminant root i) m = (.error f, m) := by
  rw [execute, Action.apply_bind_of_ok finds.run]
  simp only [none]
  exact Action.apply_bind_of_error (Action.ofExcept_eq_iff.2 ⟨rfl, rfl⟩) _

theorem setDiscriminant_eq_ok_iff (finds : m.Finds root p ⟨.enum e, align⟩) :
    execute (.setDiscriminant root i) m = (.ok (), n) ↔ ∃ variant memory,
      e.variantAt i = .ok variant ∧
        Memory.storeTag p align variant.tagger m.store.memory = .ok memory ∧ n = m.upon memory := by
  cases has : e.variantAt i with
  | ok variant =>
      rw [execute_setDiscriminant finds has, storeTag_eq_ok_iff]
      simp only [Except.ok.injEq, exists_and_left, exists_eq_left']
  | error f =>
      rw [execute_setDiscriminant_of_error finds has]
      constructor
      · rintro ⟨⟩
      · rintro ⟨_, _, ⟨⟩, -⟩

/-- A variant is stored in parts by a store of the payload, and of the tag after it. -/
theorem storeInParts_eq_ok_iff (numbered : m.store.memory.Numbered)
    (finds : m.Finds root p ⟨.enum e, align⟩) :
    storeInParts root i v m = (.ok (), n) ↔ ∃ variant memory last, e.variantAt i = .ok variant ∧
      m.store.memory.typedStore p v ⟨variant.ty, align⟩ = .ok memory ∧
        Memory.storeTag p align variant.tagger memory = .ok last ∧ n = m.upon last := by
  have found {ty : Ty} {memory : Memory}
      (payload : m.store.memory.typedStore p v ⟨ty, align⟩ = .ok memory) :
      (m.upon memory).Finds root p ⟨.enum e, align⟩ := by
    obtain ⟨_, -, stored⟩ := Memory.typedStore_eq_ok_iff.1 payload
    exact finds.upon (Memory.outline_of_store numbered stored)
  rw [storeInParts, Action.bind_eq_ok_iff]
  constructor
  · rintro ⟨_, t, first, second⟩
    cases has : e.variantAt i with
    | error f =>
        -- then there is no place for the payload
        rw [storeAt, evalPlace, bind_assoc, Action.apply_bind_of_ok finds.run] at first
        simp only [has] at first
        cases first
    | ok variant =>
        obtain ⟨memory, payload, rfl⟩ := (storeAt_eq_ok_iff (finds.downcast has)).1 first
        obtain ⟨other, last, named, tag, rfl⟩ := (setDiscriminant_eq_ok_iff (found payload)).1 second
        obtain rfl := Except.ok.inj (has.symm.trans named)
        exact ⟨variant, memory, last, rfl, payload, tag, rfl⟩
  · rintro ⟨variant, memory, last, has, payload, tag, rfl⟩
    refine ⟨(), m.upon memory, ?_, ?_⟩
    · exact (storeAt_eq_ok_iff (finds.downcast has)).2 ⟨memory, payload, rfl⟩
    · exact (setDiscriminant_eq_ok_iff (found payload)).2 ⟨variant, last, has, tag, rfl⟩

/-- However far a tag is stored, only its bytes change. -/
theorem agree_of_storeTag {ws : List TagWrite} {answer : Except Fault Unit}
    (numbered : m.store.memory.Numbered) (run : storeTag p align ws m = (answer, n)) :
    ∃ memory, n = m.upon memory ∧
      Memory.Agree (Memory.TagBytes p ws) m.store.memory memory := by
  induction ws generalizing m with
  | nil =>
      cases run
      exact ⟨n.store.memory, rfl, .refl _⟩
  | cons w ws ih =>
      rw [storeTag, Action.apply_bind, apply_offsetInBounds] at run
      cases moved : m.store.memory.offsetInBounds p w.offset with
      | error f =>
          rw [moved] at run
          cases run
          exact ⟨n.store.memory, rfl, .refl _⟩
      | ok q =>
          rw [moved] at run
          dsimp only at run
          rw [Action.apply_bind] at run
          cases written : m.store.memory.typedStore q (.int w.value)
              ⟨.int w.ty, restrictAlign align w.offset⟩ with
          | error f =>
              rw [Store.typedStore, onStore_change_of_error written] at run
              cases run
              exact ⟨n.store.memory, rfl, .refl _⟩
          | ok memory =>
              have one : Memory.storeTag p align [w] m.store.memory = .ok memory :=
                Memory.storeTag_cons_eq_ok_iff.2 ⟨q, memory, moved, written, rfl⟩
              have first := Memory.agree_of_storeTag numbered one
              rw [Store.typedStore, onStore_change_of_ok written] at run
              obtain ⟨last, rfl, later⟩ :=
                ih (Memory.numbered_of_outline_eq first.outline numbered) run
              refine ⟨last, rfl, (first.mono fun _ _ => ?_).trans (later.mono fun _ _ => ?_)⟩
              · exact Memory.TagBytes.mono (List.cons_subset_cons w (List.nil_subset ws))
              · exact Memory.TagBytes.mono (List.subset_cons_self w ws)

/-! ## The laws -/

/-- What a place of an enum is to the statements of a program. -/
structure Tagged (m : Machine) (root : PlaceExpr) (p : Pointer) (e : EnumTy) (align : Int) : Prop where
  /-- To store a variant is to store its payload and to set the discriminant. -/
  parts : e.Taggable m.target → ∀ i v n,
    onStore (Store.typedStore p (.variant i v) ⟨.enum e, align⟩) m = (.ok (), n) ↔
      storeInParts root i v m = (.ok (), n)
  /-- A discriminant that is set, or set in part, changes the bytes of its tag alone. -/
  beside : ∀ i answer n, execute (.setDiscriminant root i) m = (answer, n) →
    ∃ memory, n = m.upon memory ∧ m.store.memory.Agree (fun k addr => ∃ variant,
      e.variantAt i = .ok variant ∧ Memory.TagBytes p variant.tagger k addr) memory
  /-- To set it again changes nothing. -/
  again : ∀ i n, execute (.setDiscriminant root i) m = (.ok (), n) →
    execute (.setDiscriminant root i) n = (.ok (), n)
  /-- If the enum was built with a tag in front, it is what is found, where the enum can be read. -/
  found : ∀ target payloads tag data (i : Nat) n, EnumTy.tagged target payloads tag = .ok e →
    0 ≤ tag.size → i < payloads.length → m.store.memory.load p e.size align = .ok data →
      execute (.setDiscriminant root i) m = (.ok (), n) →
        evalValue (.discriminant root) n = (.ok (.int i, e.discriminantTy), n)

section Laws

variable (laid : m.store.memory.Laid) (power : PowerOfTwo align)
  (finds : m.Finds root p ⟨.enum e, align⟩)

include laid power finds

theorem typedStore_iff_storeInParts (taggable : e.Taggable m.target) :
    onStore (Store.typedStore p (.variant i v) ⟨.enum e, align⟩) m = (.ok (), n) ↔
      storeInParts root i v m = (.ok (), n) := by
  rw [storeInParts_eq_ok_iff laid.numbered finds, Store.typedStore, onStore_change_iff_upon]
  simp only [Memory.typedStore_variant_iff laid power taggable]
  constructor
  · rintro ⟨last, ⟨variant, memory, has, payload, tag⟩, rfl⟩
    exact ⟨variant, memory, last, has, payload, tag, rfl⟩
  · rintro ⟨variant, memory, last, has, payload, tag, rfl⟩
    exact ⟨last, ⟨variant, memory, has, payload, tag⟩, rfl⟩

omit power in
theorem agree_of_setDiscriminant {answer : Except Fault Unit}
    (run : execute (.setDiscriminant root i) m = (answer, n)) :
    ∃ memory, n = m.upon memory ∧ m.store.memory.Agree (fun k addr => ∃ variant,
      e.variantAt i = .ok variant ∧ Memory.TagBytes p variant.tagger k addr) memory := by
  cases has : e.variantAt i with
  | error f =>
      rw [execute_setDiscriminant_of_error finds has] at run
      cases run
      exact ⟨m.store.memory, rfl, .refl _⟩
  | ok variant =>
      rw [execute_setDiscriminant finds has] at run
      obtain ⟨memory, rfl, agree⟩ := agree_of_storeTag laid.numbered run
      exact ⟨memory, rfl, agree.mono fun _ _ hit => ⟨variant, rfl, hit⟩⟩

omit power in
theorem setDiscriminant_again (run : execute (.setDiscriminant root i) m = (.ok (), n)) :
    execute (.setDiscriminant root i) n = (.ok (), n) := by
  obtain ⟨variant, memory, has, tag, rfl⟩ := (setDiscriminant_eq_ok_iff finds).1 run
  have same := (Memory.agree_of_storeTag laid.numbered tag).outline
  refine (setDiscriminant_eq_ok_iff (finds.upon same)).2 ⟨variant, memory, has, ?_, rfl⟩
  exact Memory.storeTag_again laid.numbered tag

theorem discriminant_of_setDiscriminant {target : Target} {payloads : List (List Ty)} {tag : IntTy}
    {data : List AbsByte} {i : Nat} (built : EnumTy.tagged target payloads tag = .ok e)
    (sized : 0 ≤ tag.size) (bound : i < payloads.length)
    (loaded : m.store.memory.load p e.size align = .ok data)
    (run : execute (.setDiscriminant root i) m = (.ok (), n)) :
    evalValue (.discriminant root) n = (.ok (.int i, e.discriminantTy), n) := by
  obtain ⟨variant, memory, has, tagged, rfl⟩ := (setDiscriminant_eq_ok_iff finds).1 run
  obtain ⟨-, room, tree, front⟩ := tagger_of_tagged sized built
  obtain ⟨k, number, at_⟩ := elementAt_eq_ok_iff.1 has
  obtain rfl := Int.ofNat_inj.1 number
  rw [front i variant at_] at tagged
  have same := (Memory.agree_of_storeTag laid.numbered tagged).outline
  obtain ⟨data', loaded'⟩ := Memory.exists_load_of_outline_eq same.symm loaded
  have read := Memory.decode_of_storeTag laid power sized room tagged loaded'
  have target := Memory.target_of_outline_eq same
  have decoded : e.discriminator.decode memory.target data' = some (i : Int) := by
    rw [tree, decode_tagDiscriminator_iff, target]
    exact ⟨read, Int.natCast_nonneg i, Int.ofNat_lt.2 bound⟩
  exact evalValue_discriminant (finds memory same) loaded' decoded

end Laws

/-- Whatever was done to memory before, a variant may be written whole or in parts, and of the parts
the second one keeps to its bytes. -/
theorem tagged_of_reachable {target : Target} {chooser : Chooser} {calls : List Memory.Call}
    (reached : m.store.memory = (Memory.fresh target chooser).afterAll calls)
    (power : PowerOfTwo align) (finds : m.Finds root p ⟨.enum e, align⟩) :
    m.Tagged root p e align := by
  have laid : m.store.memory.Laid := reached ▸ (Memory.Laid.fresh target chooser).afterAll calls
  exact {
    parts := fun taggable i v n => typedStore_iff_storeInParts laid power finds taggable
    beside := fun i answer n => agree_of_setDiscriminant laid finds
    again := fun i n => setDiscriminant_again laid finds
    found := fun target payloads tag data i n built sized bound loaded =>
      discriminant_of_setDiscriminant laid power finds built sized bound loaded }

/-! ### A byte that may be absent -/

/-- The machine at rest, with a number of bytes at 16 to which nothing was stored. -/
def withBlank (size : Int) : Machine :=
  resting ((Memory.fresh .standard fun _ _ => .ok 16).afterAll [.allocate size 1 .stack])

/-- The machine at rest, with some bytes at 16. -/
def withBytes (data : List AbsByte) : Machine :=
  (withBlank data.length).upon { (withBlank data.length).store.memory with
    allocations := [{ id := ⟨0⟩, addr := 16, align := 1, kind := .stack, contents := data }] }

/-- A byte that may be absent, behind a tag of one byte. -/
def maybeByte : EnumTy where
  variants := [⟨.tuple [] 2, [⟨0, ⟨false, 1⟩, 0⟩]⟩,
    ⟨.tuple [⟨1, .int ⟨false, 1⟩⟩] 2, [⟨0, ⟨false, 1⟩, 1⟩]⟩]
  discriminator := tagDiscriminator ⟨false, 1⟩ 2
  discriminantTy := .int ⟨true, 8⟩
  size := 2

theorem taggable_maybeByte : maybeByte.Taggable .standard where
  fill := by
    have absent : (Ty.tuple [] 2).Every (Ty.PayloadsFill .standard) := .intro trivial nofun
    have byte : (Ty.int ⟨false, 1⟩).Every (Ty.PayloadsFill .standard) := .intro trivial nofun
    have present : (Ty.tuple [⟨1, .int ⟨false, 1⟩⟩] 2).Every (Ty.PayloadsFill .standard) :=
      .intro trivial (List.forall_mem_singleton.2 byte)
    exact .intro (List.forall_mem_cons.2 ⟨rfl, List.forall_mem_singleton.2 rfl⟩)
      (List.forall_mem_cons.2 ⟨absent, List.forall_mem_singleton.2 present⟩)
  fit := List.forall_mem_cons.2 ⟨List.forall_mem_singleton.2 rfl,
    List.forall_mem_singleton.2 (List.forall_mem_singleton.2 rfl)⟩
  inside := List.forall_mem_cons.2 ⟨List.forall_mem_singleton.2 (by decide),
    List.forall_mem_singleton.2 (List.forall_mem_singleton.2 (by decide))⟩
  sized := by decide

/-- A byte is stored in parts as it is whole. Its tag alone leaves the byte behind it blank, is
there once it was written, and is the same when it was written twice. -/
theorem tagged_maybeByte :
    let m := withBlank 2
    let root := placeAt ⟨16, some ⟨0⟩⟩ (.enum maybeByte) 1
    (∃ n, storeInParts root 1 (.tuple [.int 7]) m = (.ok (), n) ∧
      n.store.memory.load ⟨16, some ⟨0⟩⟩ 2 1 = .ok [.init 1 none, .init 7 none]) ∧
    ∃ n, execute (.setDiscriminant root 1) m = (.ok (), n) ∧
      n.store.memory.load ⟨16, some ⟨0⟩⟩ 2 1 = .ok [.init 1 none, .uninit] ∧
      execute (.setDiscriminant root 1) n = (.ok (), n) ∧
      evalValue (.discriminant root) n = (.ok (.int 1, .int ⟨true, 8⟩), n) := by
  intro m root
  have reached : m.store.memory = (Memory.fresh .standard fun _ _ => .ok 16).afterAll
      [.allocate 2 1 .stack] := rfl
  have laws : m.Tagged root ⟨16, some ⟨0⟩⟩ maybeByte 1 :=
    tagged_of_reachable reached powerOfTwo_one (finds_placeAt m _ _ _)
  obtain ⟨n, tag, data⟩ : ∃ n, execute (.setDiscriminant root 1) m = (.ok (), n) ∧
      n.store.memory.load ⟨16, some ⟨0⟩⟩ 2 1 = .ok [.init 1 none, .uninit] := ⟨_, rfl, rfl⟩
  have whole : onStore (Store.typedStore ⟨16, some ⟨0⟩⟩ (.variant 1 (.tuple [.int 7]))
      ⟨.enum maybeByte, 1⟩) m = (.ok (), withBytes [.init 1 none, .init 7 none]) := rfl
  have parts := (laws.parts taggable_maybeByte 1 (.tuple [.int 7]) _).1 whole
  refine ⟨⟨_, parts, rfl⟩, n, tag, data, laws.again 1 n tag, ?_⟩
  exact laws.found .standard [[], [.int ⟨false, 1⟩]] ⟨false, 1⟩ [.uninit, .uninit] 1 n rfl (by decide)
    (by decide) rfl tag

/-! ### What has to be asked for -/

/-- An enum of two bytes with a payload of none. -/
def shallow : EnumTy where
  variants := [⟨.tuple [] 0, []⟩]
  discriminator := .known 0
  discriminantTy := .int ⟨true, 8⟩
  size := 2

/-- A tag in the second byte of such an enum. -/
def behindShallow : EnumTy where
  variants := [⟨.enum shallow, [⟨1, ⟨false, 1⟩, 7⟩]⟩]
  discriminator := .known 0
  discriminantTy := .int ⟨true, 8⟩
  size := 2

/-- A tag that has no bytes. -/
def emptyTag : EnumTy where
  variants := [⟨.tuple [] 0, [⟨0, ⟨false, 0⟩, 0⟩]⟩]
  discriminator := .known 0
  discriminantTy := .int ⟨true, 8⟩
  size := 0

/-- That the payloads of an enum have its size is not enough. Where the payload is itself an enum,
with a payload that is too short, the tag is laid over too few bytes and goes to the wrong one. An
integer without bytes is laid over any bytes, but there is no pointer to it at the end of the
addresses. And a tag can be written to memory that is too small for the enum, from which the
discriminant cannot be read. -/
theorem not_tagged :
    let value : Value := .variant 0 (.variant 0 (.tuple []))
    let p : Pointer := ⟨16, some ⟨0⟩⟩
    let last : Pointer := ⟨2 ^ 64, none⟩
    let root := placeAt p (.enum behindShallow) 1
    let far := placeAt last (.enum emptyTag) 1
    let small := placeAt p (.enum maybeByte) 1
    ((Ty.enum behindShallow).PayloadsFill .standard ∧ (Ty.enum behindShallow).TagsFit ∧
      (Ty.enum behindShallow).TagsInside ∧ (Ty.enum emptyTag).PayloadsFill .standard ∧
      (Ty.enum emptyTag).TagsFit ∧ (Ty.enum emptyTag).TagsInside) ∧
    (∃ n k, storeAt root value (withBlank 2) = (.ok (), n) ∧
      storeInParts root 0 (.variant 0 (.tuple [])) (withBlank 2) = (.ok (), k) ∧
      n.store.memory.load p 2 1 = .ok [.init 7 none, .uninit] ∧
      k.store.memory.load p 2 1 = .ok [.uninit, .init 7 none]) ∧
    (storeAt far (.variant 0 (.tuple [])) (withBlank 2) = (.ok (), withBlank 2) ∧
      storeInParts far 0 (.tuple []) (withBlank 2) =
        (.error (.undefined .offsetOverflow), withBlank 2)) ∧
    (EnumTy.tagged .standard [[], [.int ⟨false, 1⟩]] ⟨false, 1⟩ = .ok maybeByte ∧
      ∃ n, execute (.setDiscriminant small 0) (withBlank 1) = (.ok (), n) ∧
        evalValue (.discriminant small) n = (.error (.undefined .outOfBounds), n)) := by
  refine ⟨⟨?_, ?_, ?_, ?_, ?_, ?_⟩, ⟨withBytes [.init 7 none, .uninit],
    withBytes [.uninit, .init 7 none], rfl, rfl, rfl, rfl⟩, ⟨rfl, rfl⟩, rfl, ⟨_, rfl, rfl⟩⟩
  · exact List.forall_mem_singleton.2 rfl
  · exact List.forall_mem_singleton.2 (List.forall_mem_singleton.2 rfl)
  · exact List.forall_mem_singleton.2 (List.forall_mem_singleton.2 (by decide))
  · exact List.forall_mem_singleton.2 rfl
  · exact List.forall_mem_singleton.2 (List.forall_mem_singleton.2 rfl)
  · exact List.forall_mem_singleton.2 (List.forall_mem_singleton.2 (by decide))

end Machine

end AbstractMachine
