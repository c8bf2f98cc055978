/-
# AbstractMachine.Proofs.Provenance.Casts — exposed pointers survive the way through an integer

The standard predictor looks for an exposed allocation that contains the address, and if there is
none, for one that ends there. Live allocations do not overlap, so there is at most one that contains
the address; several may end there, and the one with the least number is taken. What the predictor
finds this way is what an access would be granted through: a pointer to that address with that
provenance may be used, and no other one that is exposed may be.

So a pointer that was turned into its address comes back from it as it was, whatever happened since,
as long as its allocation is live and the address lies in it.
-/
import AbstractMachine.Proofs.Machine.Disclosure
import AbstractMachine.Proofs.Machine.Foundation
import AbstractMachine.Proofs.Provenance.Unforged

namespace AbstractMachine

/-! ## The first of a list -/

/-- Where no test fails, the first that passes is found as in any list. -/
theorem firstOk_eq_find? {α : Type} {test : α → Except Fault Bool} {p : α → Bool} {xs : List α}
    (h : ∀ x ∈ xs, test x = .ok (p x)) : firstOk test xs = .ok (xs.find? p) := by
  induction xs with
  | nil => rfl
  | cons x xs ih =>
      obtain ⟨first, rest⟩ := List.forall_mem_cons.1 h
      rw [firstOk, first]
      cases passes : p x with
      | true => rw [List.find?_cons_of_pos passes]
      | false => rw [List.find?_cons_of_neg (by simp [passes]), ← ih rest]

namespace AllocId

theorem mem_sorted {id : AllocId} {ids : List AllocId} : id ∈ sorted ids ↔ id ∈ ids :=
  List.mem_mergeSort

theorem pairwise_sorted (ids : List AllocId) :
    (sorted ids).Pairwise fun a b => a.index ≤ b.index := by
  have order : (sorted ids).Pairwise fun a b => decide (a.index ≤ b.index) = true := by
    apply List.pairwise_mergeSort
    · intro a b c
      simp only [decide_eq_true_eq]
      omega
    · intro a b
      simp only [Bool.or_eq_true, decide_eq_true_eq]
      omega
  exact order.imp of_decide_eq_true

/-- What is found first among sorted identities is the least that can be found. -/
theorem index_le_of_find?_sorted {p : AllocId → Bool} {ids : List AllocId} {id other : AllocId}
    (h : (sorted ids).find? p = some id) (among : other ∈ ids) (passes : p other = true) :
    id.index ≤ other.index := by
  obtain ⟨-, before, after, split, fails⟩ := List.find?_eq_some_iff_append.1 h
  have order := pairwise_sorted ids
  rw [split] at order
  have found := mem_sorted.2 among
  rw [split] at found
  rcases List.mem_append.1 found with early | late
  · have fails : (!p other) = true := fails other early
    simp [passes] at fails
  · rcases List.mem_cons.1 late with rfl | late
    · exact Int.le_refl _
    · exact (List.pairwise_cons.1 (List.pairwise_append.1 order).2.1).1 other late

end AllocId

namespace Memory

variable {m : Memory} {id other : AllocId} {addr size : Int} {a b : Allocation}

theorem covers_eq_ok_true_iff (found : m.allocation id = .ok a) {onePastEnd : Bool} :
    m.covers id addr onePastEnd = .ok true ↔
      a.live = true ∧ a.addr ≤ addr ∧ if onePastEnd then addr ≤ a.stop else addr < a.stop := by
  rw [covers, found]
  cases onePastEnd <;> simp [bind, Except.bind, pure, Except.pure, and_assoc]

/-- Bytes may be accessed at any address that their allocation contains. -/
theorem dereferenceable_eq_ok_iff (nonempty : size ≠ 0) (found : m.allocation id = .ok a)
    (positive : 0 < a.addr) : m.dereferenceable ⟨addr, some id⟩ size 1 = .ok () ↔
      a.live = true ∧ a.addr ≤ addr ∧ addr + size ≤ a.stop := by
  have aligned : isAligned addr 1 = .ok true := by
    rw [isAligned_of_ne_zero (by decide), Int.emod_one]
    rfl
  simp only [dereferenceable, bind_eq_ok_iff, checkPtr_eq_ok_iff]
  constructor
  · rintro ⟨_, ⟨-, ⟨zero, -⟩ | ⟨-, b, rfl, hits⟩⟩, -⟩
    · exact absurd zero nonempty
    · obtain ⟨_, ⟨⟩, same⟩ := hits.named
      obtain rfl := Except.ok.inj (found.symm.trans same)
      exact ⟨hits.live, hits.start, hits.stop⟩
  · rintro ⟨live, start, stop⟩
    have nonnull : addr ≠ 0 := by omega
    exact ⟨some a, ⟨aligned, .inr ⟨nonempty, a, rfl, ⟨id, rfl, found⟩, live, nonnull, start, stop⟩⟩,
      rfl⟩

/-- No address lies in two live allocations. -/
theorem Laid.eq_of_contains (laid : m.Laid) (found : m.allocation id = .ok a)
    (found' : m.allocation other = .ok b) (live : a.live = true) (live' : b.live = true)
    (inside : a.addr ≤ addr ∧ addr < a.stop) (inside' : b.addr ≤ addr ∧ addr < b.stop) :
    id = other := by
  obtain ⟨i, rfl, ha⟩ := exists_getElem?_of_allocation found
  obtain ⟨j, rfl, hb⟩ := exists_getElem?_of_allocation found'
  by_contra distinct
  have numbers : i ≠ j := fun same => distinct (same ▸ rfl)
  have apart := laid.apart i j a b numbers ha hb live live'
  rw [Allocation.Apart] at apart
  omega

end Memory

namespace Machine

variable {program : Program} {target : Target} {chooser : Chooser} {predictor : Predictor}
  {m m' : Machine} {id other : AllocId} {addr : Int}

/-! ## What the standard predictor finds -/

/-- An exposed name permits an access of at least one byte at an address. -/
def Permits (m : Machine) (addr : Int) (id : AllocId) : Prop :=
  id ∈ m.store.casts.exposed ∧
    ∃ n, 1 ≤ n ∧ m.store.memory.dereferenceable ⟨addr, some id⟩ n 1 = .ok ()

/-- An exposed name is that of a live allocation that ends at an address. -/
def EndsAt (m : Machine) (addr : Int) (id : AllocId) : Prop :=
  id ∈ m.store.casts.exposed ∧
    ∃ a, m.store.memory.allocation id = .ok a ∧ a.live = true ∧ a.stop = addr

/-- A machine in which all exposed names are names of memory, whose casts the standard predictor
decides. -/
structure Recovers (m : Machine) : Prop where
  laid : m.store.memory.Laid
  named : ∀ id ∈ m.store.casts.exposed, ∃ a, m.store.memory.allocation id = .ok a
  standard : m.store.casts.predictor = .standard

theorem Reachable.recovers (h : Reachable program target chooser .standard m)
    (constants : program.In .unforged) : m.Recovers := by
  have sound : Sound True .unforged m m.stack (fun _ => False) m :=
    (h.sound constants fun v ty h _ => h v ty rfl).2
  refine ⟨h.laid, fun id exposed => ?_, h.predictor_eq⟩
  obtain ⟨a, found, -⟩ := sound.named trivial id (.inl (.exposed exposed))
  exact ⟨a, found⟩

namespace Recovers

variable (h : m.Recovers)

include h

/-- An access of some bytes is permitted where the allocation contains the address. -/
theorem permits_iff : m.Permits addr id ↔ id ∈ m.store.casts.exposed ∧
    ∃ a, m.store.memory.allocation id = .ok a ∧ a.live = true ∧ a.addr ≤ addr ∧ addr < a.stop := by
  constructor
  · rintro ⟨exposed, n, positive, permitted⟩
    obtain ⟨a, found⟩ := h.named id exposed
    have placed := h.laid.placed a (Memory.mem_allocations_of_allocation found)
    obtain ⟨live, start, stop⟩ := (Memory.dereferenceable_eq_ok_iff (by omega) found
      placed.positive).1 permitted
    exact ⟨exposed, a, found, live, start, by omega⟩
  · rintro ⟨exposed, a, found, live, start, inside⟩
    have placed := h.laid.placed a (Memory.mem_allocations_of_allocation found)
    exact ⟨exposed, 1, Int.le_refl 1, (Memory.dereferenceable_eq_ok_iff (by decide) found
      placed.positive).2 ⟨live, start, inside⟩⟩

/-- The first exposed name that covers the address, with or without the address one past the end. -/
theorem search (addr : Int) (onePastEnd : Bool) : ∃ o,
    firstOk (fun id => m.store.memory.covers id addr onePastEnd)
      (AllocId.sorted m.store.casts.exposed) = .ok o ∧
    (∀ id, o = some id → id ∈ m.store.casts.exposed ∧
      m.store.memory.covers id addr onePastEnd = .ok true ∧
      ∀ other ∈ m.store.casts.exposed, m.store.memory.covers other addr onePastEnd = .ok true →
        id.index ≤ other.index) ∧
    (o = none → ∀ id ∈ m.store.casts.exposed,
      m.store.memory.covers id addr onePastEnd ≠ .ok true) := by
  let passes (id : AllocId) : Bool :=
    (m.store.memory.covers id addr onePastEnd).toOption.getD false
  have answers (id : AllocId) (exposed : id ∈ m.store.casts.exposed) :
      m.store.memory.covers id addr onePastEnd = .ok (passes id) := by
    obtain ⟨a, found⟩ := h.named id exposed
    obtain ⟨b, covers⟩ := Memory.exists_covers found addr onePastEnd
    show m.store.memory.covers id addr onePastEnd =
      .ok ((m.store.memory.covers id addr onePastEnd).toOption.getD false)
    rw [covers]
    rfl
  refine ⟨_, firstOk_eq_find? fun id among => answers id (AllocId.mem_sorted.1 among), ?_, ?_⟩
  · intro id found
    have among := AllocId.mem_sorted.1 (List.mem_of_find?_eq_some found)
    have covers := answers id among
    rw [List.find?_some found] at covers
    refine ⟨among, covers, fun other exposed covers' => ?_⟩
    rw [answers other exposed] at covers'
    exact AllocId.index_le_of_find?_sorted found exposed (Except.ok.inj covers')
  · intro none id exposed covers
    rw [answers id exposed] at covers
    exact List.find?_eq_none.1 none id (AllocId.mem_sorted.2 exposed) (Except.ok.inj covers)

/-- The standard predictor prefers a name that contains the address to one that ends there. -/
theorem castAnswer_eq {o o' : Option AllocId}
    (first : firstOk (fun id => m.store.memory.covers id addr false)
      (AllocId.sorted m.store.casts.exposed) = .ok o)
    (second : firstOk (fun id => m.store.memory.covers id addr true)
      (AllocId.sorted m.store.casts.exposed) = .ok o')
    (exposed : ∀ id, o.or o' = some id → id ∈ m.store.casts.exposed) :
    m.castAnswer addr = .ok ⟨addr, o.or o'⟩ := by
  have predicted : m.store.casts.predictor m.store.casts.asked (m.castQuery addr) =
      .ok (o.or o') := by
    rw [h.standard]
    cases o with
    | none => exact bind_eq_ok_iff.2 ⟨none, first, second⟩
    | some id => exact bind_eq_ok_iff.2 ⟨some id, first, rfl⟩
  refine bind_eq_ok_iff.2 ⟨o.or o', predicted, ?_⟩
  cases found : o.or o' with
  | none => rfl
  | some id =>
      have among : m.store.casts.exposed.contains id = true :=
        List.contains_iff_mem.2 (exposed id found)
      exact bind_eq_ok_iff.2 ⟨(), require_eq_ok_iff.2 among, rfl⟩

/-- The exposed allocation that contains an address is recovered from it. It is the only one. -/
theorem castAnswer_of_permits (permits : m.Permits addr id) :
    m.castAnswer addr = .ok ⟨addr, some id⟩ ∧ ∀ other, m.Permits addr other → other = id := by
  have unique {p q : AllocId} (hp : m.Permits addr p) (hq : m.Permits addr q) : p = q := by
    obtain ⟨-, a, found, live, inside⟩ := h.permits_iff.1 hp
    obtain ⟨-, b, found', live', inside'⟩ := h.permits_iff.1 hq
    exact h.laid.eq_of_contains found found' live live' inside inside'
  refine ⟨?_, fun other permits' => unique permits' permits⟩
  obtain ⟨exposed, a, found, live, inside⟩ := h.permits_iff.1 permits
  have covers : m.store.memory.covers id addr false = .ok true :=
    (Memory.covers_eq_ok_true_iff found).2 ⟨live, inside⟩
  obtain ⟨o, first, some, none⟩ := h.search addr false
  cases o with
  | none => exact absurd covers (none rfl id exposed)
  | some q =>
      obtain ⟨exposed', covers', -⟩ := some q rfl
      obtain ⟨b, found'⟩ := h.named q exposed'
      obtain ⟨live', inside'⟩ := (Memory.covers_eq_ok_true_iff found').1 covers'
      obtain rfl := unique (h.permits_iff.2 ⟨exposed', b, found', live', inside'⟩) permits
      obtain ⟨o', second, -, -⟩ := h.search addr true
      exact h.castAnswer_eq first second fun _ same => Option.some.inj same ▸ exposed'

/-- Without one, an exposed allocation that ends at the address is recovered, the one with the least
number, if there is any. -/
theorem castAnswer_of_not_permits (outside : ∀ id, ¬m.Permits addr id) :
    (∃ id, m.EndsAt addr id ∧ (∀ other, m.EndsAt addr other → id.index ≤ other.index) ∧
      m.castAnswer addr = .ok ⟨addr, some id⟩) ∨
    ((∀ id, ¬m.EndsAt addr id) ∧ m.castAnswer addr = .ok ⟨addr, none⟩) := by
  -- What contains nothing of the address and still covers it ends there, and the other way round.
  have ends (id : AllocId) (exposed : id ∈ m.store.casts.exposed) :
      m.store.memory.covers id addr true = .ok true ↔ m.EndsAt addr id := by
    obtain ⟨a, found⟩ := h.named id exposed
    have nonneg := (h.laid.placed a (Memory.mem_allocations_of_allocation found)).nonneg
    rw [Memory.covers_eq_ok_true_iff found]
    constructor
    · rintro ⟨live, start, stop⟩
      refine ⟨exposed, a, found, live, ?_⟩
      have behind : ¬addr < a.stop := fun inside =>
        outside id (h.permits_iff.2 ⟨exposed, a, found, live, start, inside⟩)
      have stop : addr ≤ a.stop := stop
      omega
    · rintro ⟨-, b, found', live, rfl⟩
      obtain rfl := Except.ok.inj (found.symm.trans found')
      refine ⟨live, ?_, Int.le_refl _⟩
      rw [Allocation.stop]
      omega
  obtain ⟨o, first, inside, -⟩ := h.search addr false
  obtain rfl : o = none := by
    cases o with
    | none => rfl
    | some q =>
        obtain ⟨exposed, covers, -⟩ := inside q rfl
        obtain ⟨a, found⟩ := h.named q exposed
        exact absurd (h.permits_iff.2 ⟨exposed, a, found,
          (Memory.covers_eq_ok_true_iff found).1 covers⟩) (outside q)
  obtain ⟨o, second, least, nothing⟩ := h.search addr true
  have answer : m.castAnswer addr = .ok ⟨addr, o⟩ :=
    h.castAnswer_eq first second fun id same => (least id same).1
  cases o with
  | none =>
      refine .inr ⟨fun id ends' => ?_, answer⟩
      exact nothing rfl id ends'.1 ((ends id ends'.1).2 ends')
  | some id =>
      obtain ⟨exposed, covers, first⟩ := least id rfl
      refine .inl ⟨id, (ends id exposed).1 covers, fun other ends' => ?_, answer⟩
      exact first other ends'.1 ((ends other ends'.1).2 ends')

end Recovers

/-! ## Reachable machines -/

theorem fst_fromAddr (m : Machine) (addr : Int) : (fromAddr addr m).1 = m.castAnswer addr := by
  rw [apply_fromAddr]
  cases m.castAnswer addr <;> rfl

/-- What was exposed stays exposed. -/
theorem Reachable.exposed_of_steps (h : Reachable program target chooser predictor m)
    (steps : Relation.ReflTransGen (fun m m' => step m = (.ok (), m')) m m')
    (exposed : id ∈ m.store.casts.exposed) : id ∈ m'.store.casts.exposed := by
  induction steps with
  | refl => exact exposed
  | @tail n n' before run ih =>
      obtain ⟨m₀, begun, first⟩ := h
      have reached : Reachable program target chooser predictor n := ⟨m₀, begun, first.trans before⟩
      obtain ⟨_, _, _, _, -, -, -, stands⟩ := reached.turn run
      exact stands.exposed id ih

/-- Exposed pointers survive the way through an integer. In every reachable machine whose casts the
standard predictor decides, and whose program has no constants with provenance, an address becomes a
pointer with the exposed provenance through which it may be accessed, which is the only one; where
there is none, with that of the first exposed live allocation that ends there; and else with none. So
a pointer into a live allocation that was cast to an address in an earlier step comes back from it. -/
theorem fromAddr_of_reachable (constants : program.In .unforged)
    (h : Reachable program target chooser .standard m) :
    (∀ addr id, m.Permits addr id → (fromAddr addr m).1 = .ok ⟨addr, some id⟩ ∧
      ∀ other, m.Permits addr other → other = id) ∧
    (∀ addr, (∀ id, ¬m.Permits addr id) →
      (∃ id, m.EndsAt addr id ∧ (∀ other, m.EndsAt addr other → id.index ≤ other.index) ∧
        (fromAddr addr m).1 = .ok ⟨addr, some id⟩) ∨
      (∀ id, ¬m.EndsAt addr id) ∧ (fromAddr addr m).1 = .ok ⟨addr, none⟩) ∧
    (∀ m₁ m₂ p id a, Reachable program target chooser .standard m₁ → m₁.Exposes id →
      step m₁ = (.ok (), m₂) →
      Relation.ReflTransGen (fun m m' => step m = (.ok (), m')) m₂ m →
      p.provenance = some id → m.store.memory.allocation id = .ok a → a.live = true →
      a.addr ≤ p.addr → p.addr < a.stop → (fromAddr p.addr m).1 = .ok p) := by
  have recovers := h.recovers constants
  refine ⟨fun addr id permits => ?_, fun addr outside => ?_, ?_⟩
  · rw [fst_fromAddr]
    exact recovers.castAnswer_of_permits permits
  · rw [fst_fromAddr]
    exact recovers.castAnswer_of_not_permits outside
  · intro m₁ m₂ p id a first exposes cast steps named found live start inside
    have exposed := (mem_exposed_of_step_iff first.numbered cast).2 (.inr exposes)
    have exposed := (first.tail cast).exposed_of_steps steps exposed
    have permits := recovers.permits_iff.2 ⟨exposed, a, found, live, start, inside⟩
    rw [fst_fromAddr, (recovers.castAnswer_of_permits permits).1, ← named]

/-- The local whose address was exposed is recovered from it. -/
theorem fromAddr_exposeLocal :
    (fromAddr 3 (afterSteps exposeLocal 2)).1 = .ok ⟨3, some ⟨2⟩⟩ := by
  have noConstants : exposeLocal.In .unforged := by
    intro e he b hb
    obtain rfl := List.mem_singleton.1 he
    obtain rfl := List.mem_singleton.1 hb
    refine ⟨fun s hs => ?_, trivial⟩
    rcases List.mem_pair.1 hs with rfl | rfl
    · trivial
    · exact ⟨trivial, nofun, nofun, nofun, trivial⟩
  have before : Reachable exposeLocal ⟨8, .little⟩ inTurn .standard (afterSteps exposeLocal 1) :=
    .next (.begun rfl) rfl
  have cast : step (afterSteps exposeLocal 1) = (.ok (), afterSteps exposeLocal 2) :=
    step_afterSteps (by decide +kernel)
  have among : ⟨2⟩ ∈ (afterSteps exposeLocal 2).store.casts.exposed := by decide +kernel
  have exposes := (exposes_of_step cast among).resolve_left (by decide +kernel)
  obtain ⟨-, -, comesBack⟩ := fromAddr_of_reachable noConstants (before.tail cast)
  exact comesBack _ _ ⟨3, some ⟨2⟩⟩ ⟨2⟩ _ before exposes cast .refl rfl rfl rfl (by decide) (by decide)

end Machine

end AbstractMachine
