/-
# AbstractMachine.Proofs.Noninterference.Lockstep — two runs that differ in addresses

Two machines of a blind program are twins if they stand at the same point of it with twin memories,
and the locals of their frames lie at twin pointers. Functions have the same names in both; their
addresses differ, but in each machine no two functions share one.

Two actions mirror each other if from twin machines they get to twin machines, with related answers
or the same fault, unless a chooser fails in one of the runs. Sites may be added on the way. So the
relation between answers is one for each list of sites, and a rule for going on has to carry what
was known before to the sites that there are now.
-/
import AbstractMachine.Proofs.Machine.Operations
import AbstractMachine.Proofs.Noninterference.Blind
import AbstractMachine.Proofs.Noninterference.Memory
import AbstractMachine.Proofs.Table

namespace AbstractMachine

/-! ## Tables -/

namespace Table

variable {κ α β : Type} {R S : κ → α → β → Prop} {t : Table κ α} {u : Table κ β}

/-- Two tables have the same keys in the same order, at related values. -/
def Matches (R : κ → α → β → Prop) (t : Table κ α) (u : Table κ β) : Prop :=
  List.Forall₂ (fun e d => d.1 = e.1 ∧ R e.1 e.2 d.2) t.entries u.entries

namespace Matches

variable (h : t.Matches R u)

include h

theorem mono (sub : ∀ k a b, R k a b → S k a b) : t.Matches S u :=
  List.Forall₂.imp (fun _ _ related => ⟨related.1, sub _ _ _ related.2⟩) h

variable [DecidableEq κ]

/-- A key is in none of them, or in both. -/
theorem find? (k : κ) : t.find? k = none ∧ u.find? k = none ∨
    ∃ a b, t.find? k = some a ∧ u.find? k = some b ∧ R k a b := by
  obtain ⟨entries⟩ := t
  obtain ⟨entries'⟩ := u
  unfold Matches at h
  simp only [Table.find?] at h ⊢
  induction h with
  | nil => exact .inl ⟨rfl, rfl⟩
  | @cons e d es ds related _ ih =>
      rw [List.find?_cons, List.find?_cons, related.1]
      cases here : e.1 == k with
      | true =>
          obtain rfl := beq_iff_eq.1 here
          exact .inr ⟨e.2, d.2, rfl, rfl, related.2⟩
      | false => exact ih

theorem contains (k : κ) : u.contains k = t.contains k := by
  unfold Table.contains
  obtain ⟨left, right⟩ | ⟨a, b, left, right, -⟩ := h.find? k
  · rw [left, right]
    rfl
  · rw [left, right]
    rfl

theorem insert {k : κ} {a : α} {b : β} (new : R k a b) :
    (t.insert k a).Matches R (u.insert k b) := by
  obtain ⟨entries⟩ := t
  obtain ⟨entries'⟩ := u
  unfold Matches at h ⊢
  simp only [Table.insert] at h ⊢
  induction h with
  | nil => exact .cons ⟨rfl, new⟩ .nil
  | @cons e d es ds related rest ih =>
      obtain ⟨l, a⟩ := e
      obtain ⟨_, b⟩ := d
      obtain ⟨rfl, related⟩ := related
      rw [put, put]
      split
      · exact .cons ⟨rfl, new⟩ rest
      · exact .cons ⟨rfl, related⟩ ih

theorem erase (k : κ) : (t.erase k).Matches R (u.erase k) := by
  obtain ⟨entries⟩ := t
  obtain ⟨entries'⟩ := u
  unfold Matches at h ⊢
  simp only [Table.erase] at h ⊢
  induction h with
  | nil => exact .nil
  | @cons e d es ds related _ ih =>
      rw [List.filter_cons, List.filter_cons, related.1]
      split
      · exact .cons related ih
      · exact ih

end Matches

end Table

/-! ## Twin machines -/

/-- Two places have the same type, and are found by twin pointers. -/
structure PlaceTwin (target : Target) (W : List Site) (a b : Pointer × PlaceTy) : Prop where
  place : b.2 = a.2
  inward : a.2.ty.All (Ty.Inward target)
  twin : a.1.Twin W (a.2.byteSize target) a.2.align b.1

/-- A local of a frame lies at these two pointers. -/
def Frame.Slot (target : Target) (W : List Site) (f : Frame) (name : String) (p q : Pointer) :
    Prop :=
  ∃ place, f.localTy name = .ok place ∧ PlaceTwin target W (p, place) (q, place)

/-- Two frames are at the same point of the same blind function, which calls no address. -/
structure Frame.Twins (target : Target) (W : List Site) (f g : Frame) : Prop where
  name : g.name = f.name
  function : g.function = f.function
  block : g.block = f.block
  index : g.index = f.index
  blind : f.function.Blind target
  calls : ¬f.function.CallsAddress
  locals : f.locals.Matches (f.Slot target W) g.locals
  result : Option.Rel (PlaceTwin target W) f.result g.result

/-- No two entries of a table of addresses have the same one. -/
def Apart (t : Table String Int) : Prop :=
  t.entries.Pairwise fun e d => e.2 ≠ d.2

/-- Two machines are at the same point of the same blind program, which calls no address. -/
structure Machine.Twins (target : Target) (W : List Site) (m n : Machine) : Prop where
  program : n.program = m.program
  blind : m.program.Blind target
  calls : ¬m.program.CallsAddress
  memory : m.store.memory.Twins target W n.store.memory
  functions : m.functions.Matches (fun _ _ _ => True) n.functions
  left : Apart m.functions
  right : Apart n.functions
  stack : List.Forall₂ (Frame.Twins target W) m.stack n.stack
  stdout : n.stdout = m.stdout
  stderr : n.stderr = m.stderr
  steps : n.steps = m.steps
  terminated : n.terminated = m.terminated

variable {target : Target} {W W' : List Site} {a b : Pointer × PlaceTy} {f g : Frame}
  {p q : Pointer} {name : String} {place : PlaceTy} {α β γ δ : Type}

theorem PlaceTwin.mono (h : PlaceTwin target W a b) (le : W <+: W') : PlaceTwin target W' a b :=
  ⟨h.place, h.inward, h.twin.mono le⟩

namespace Frame

theorem Slot.mono (h : f.Slot target W name p q) (le : W <+: W') : f.Slot target W' name p q := by
  obtain ⟨place, declared, twin⟩ := h
  exact ⟨place, declared, twin.mono le⟩

/-- A local is declared with an inward type in a blind function. -/
theorem inward_of_localTy (blind : f.function.Blind target) (h : f.localTy name = .ok place) :
    place.ty.All (Ty.Inward target) := by
  unfold Frame.localTy at h
  cases found : f.function.locals.find? name with
  | none => simp [found] at h
  | some declared =>
      simp only [found, Except.ok.injEq] at h
      exact h ▸ blind.locals _ (Table.mem_entries_of_find? found)

namespace Twins

variable (h : f.Twins target W g)

include h

theorem mono (le : W <+: W') : f.Twins target W' g where
  name := h.name
  function := h.function
  block := h.block
  index := h.index
  blind := h.blind
  calls := h.calls
  locals := h.locals.mono fun _ _ _ slot => slot.mono le
  result := by
    have result := h.result
    generalize f.result = x at result ⊢
    generalize g.result = y at result ⊢
    cases result with
    | none => exact .none
    | some twin => exact .some (twin.mono le)

theorem localTy (name : String) : g.localTy name = f.localTy name := by
  rw [Frame.localTy, Frame.localTy, h.function, h.name]

theorem currentBlock : Machine.currentBlock g = Machine.currentBlock f := by
  rw [Machine.currentBlock, Machine.currentBlock, h.block, h.name, h.function]

end Twins

end Frame

namespace Machine

variable {m n : Machine}

namespace Twins

variable (h : Twins target W m n)

include h

theorem target_eq : m.target = target ∧ n.target = target :=
  ⟨h.memory.left_target, h.memory.right_target⟩

/-- Neither machine has a frame, or both have one on top of others. -/
theorem frames : m.stack = [] ∧ n.stack = [] ∨ ∃ f g fs gs, m.stack = f :: fs ∧
    n.stack = g :: gs ∧ f.Twins target W g ∧ List.Forall₂ (Frame.Twins target W) fs gs := by
  have frames := h.stack
  generalize m.stack = fs at frames ⊢
  generalize n.stack = gs at frames ⊢
  cases frames with
  | nil => exact .inl ⟨rfl, rfl⟩
  | cons top rest => exact .inr ⟨_, _, _, _, rfl, rfl, top, rest⟩

theorem withStack {fs gs : List Frame} (frames : List.Forall₂ (Frame.Twins target W) fs gs) :
    Twins target W { m with stack := fs } { n with stack := gs } :=
  { h with stack := frames }

/-- Memory changes, and may get more allocations. -/
theorem withStore {s t : Store} (le : W <+: W') (memory : s.memory.Twins target W' t.memory) :
    Twins target W' { m with store := s } { n with store := t } :=
  { h with memory, stack := h.stack.imp fun _ _ twins => twins.mono le }

end Twins

/-! ## Actions that mirror each other -/

/-- A run failed, and a chooser failed in it. -/
def Spoilt (r : Except Fault α × Machine) : Prop :=
  ∃ e, r.1 = .error e ∧ ¬r.2.store.memory.Served

/-- Two runs get to twin machines with answers that agree, unless a chooser fails. -/
inductive Alike (target : Target) (V : List Site → α → β → Prop) (W : List Site) :
    Except Fault α × Machine → Except Fault β × Machine → Prop
  | left {r s} (spoilt : Spoilt r) : Alike target V W r s
  | right {r s} (spoilt : Spoilt s) : Alike target V W r s
  | both {x y m n} {W' : List Site} (le : W <+: W') (twins : Twins target W' m n)
      (agree : Agrees (V W') x y) : Alike target V W (x, m) (y, n)

/-- Begun in twin machines with at least these sites, two actions have like ends. -/
def Mirrors (target : Target) (W : List Site) (V : List Site → α → β → Prop) (x : Action Machine α)
    (y : Action Machine β) : Prop :=
  ∀ ⦃W' m n⦄, W <+: W' → Twins target W' m n → Alike target V W' (x m) (y n)

/-- Two answers are the same, and as said. -/
def Shared (P : α → Prop) : List Site → α → α → Prop :=
  fun _ a b => b = a ∧ P a

/-- Of two answers nothing is said. -/
def Whatever : List Site → α → β → Prop :=
  fun _ _ _ => True

theorem Spoilt.bind {x : Action Machine α} {f : α → Action Machine β} (h : Spoilt (x m)) :
    Spoilt ((x >>= f) m) := by
  obtain ⟨e, failed, blame⟩ := h
  refine ⟨e, ?_⟩
  rw [Action.apply_bind_of_error (Prod.ext failed rfl)]
  exact ⟨rfl, blame⟩

/-- Two runs go on from where they are. -/
theorem Alike.bind {V : List Site → α → β → Prop} {U : List Site → γ → δ → Prop}
    {x : Action Machine α} {y : Action Machine β} {f : α → Action Machine γ}
    {g : β → Action Machine δ} (hx : Alike target V W (x m) (y n))
    (hf : ∀ W' a b m' n', W <+: W' → x m = (.ok a, m') → y n = (.ok b, n') →
      Twins target W' m' n' → V W' a b → Alike target U W' (f a m') (g b n')) :
    Alike target U W ((x >>= f) m) ((y >>= g) n) := by
  rcases left : x m with ⟨answer, m'⟩
  rcases right : y n with ⟨answer', n'⟩
  rw [left, right] at hx
  cases hx with
  | left spoilt => exact .left (Spoilt.bind (left ▸ spoilt))
  | right spoilt => exact .right (Spoilt.bind (right ▸ spoilt))
  | @both _ _ _ _ W' le twins agree =>
      cases agree with
      | error e =>
          rw [Action.apply_bind_of_error left, Action.apply_bind_of_error right]
          exact .both le twins (.error e)
      | @ok a b related =>
          -- The second parts are begun with more sites, of which the first ones are a part.
          rw [Action.apply_bind_of_ok left, Action.apply_bind_of_ok right]
          have ends := hf W' a b m' n' le left right twins related
          generalize f a m' = r at ends ⊢
          generalize g b n' = s at ends ⊢
          cases ends with
          | left spoilt => exact .left spoilt
          | right spoilt => exact .right spoilt
          | both le' twins agree => exact .both (le.trans le') twins agree

theorem Alike.of_not_spoilt {V : List Site → α → β → Prop} {r : Except Fault α × Machine}
    {s : Except Fault β × Machine} (h : Alike target V W r s) (left : ¬Spoilt r)
    (right : ¬Spoilt s) :
    ∃ W', W <+: W' ∧ Twins target W' r.2 s.2 ∧ Agrees (V W') r.1 s.1 := by
  cases h with
  | left spoilt => exact absurd spoilt left
  | right spoilt => exact absurd spoilt right
  | both le twins agree => exact ⟨_, le, twins, agree⟩

namespace Mirrors

variable {V V' : List Site → α → β → Prop} {U : List Site → γ → δ → Prop} {P : α → Prop}
  {x : Action Machine α} {y : Action Machine β}

theorem mono (h : Mirrors target W V x y) (sub : ∀ W' a b, W <+: W' → V W' a b → V' W' a b) :
    Mirrors target W V' x y := by
  intro W' m n le twins
  have ends := h le twins
  generalize x m = r at ends ⊢
  generalize y n = s at ends ⊢
  cases ends with
  | left spoilt => exact .left spoilt
  | right spoilt => exact .right spoilt
  | both le' twins agree =>
      exact .both le' twins (agree.mono fun a b related => sub _ a b (le.trans le') related)

theorem whatever (h : Mirrors target W V x y) : Mirrors target W Whatever x y :=
  h.mono fun _ _ _ _ _ => trivial

theorem pure {a : α} {b : β} (h : ∀ W', W <+: W' → V W' a b) :
    Mirrors target W V (pure a) (pure b) :=
  fun W' _ _ le twins => .both (List.prefix_refl W') twins (.ok (h W' le))

/-- The same answer. -/
theorem answer {a : α} (h : P a) : Mirrors target W (Shared P) (Pure.pure a) (Pure.pure a) :=
  .pure fun _ _ => ⟨rfl, h⟩

theorem nothing {a : α} {b : β} : Mirrors target W Whatever (Pure.pure a) (Pure.pure b) :=
  .pure fun _ _ => trivial

theorem throw {e : Fault} : Mirrors target W V (throw e) (throw e) :=
  fun W' _ _ _ twins => .both (List.prefix_refl W') twins (.error e)

theorem bind {f : α → Action Machine γ} {g : β → Action Machine δ} (hx : Mirrors target W V x y)
    (hf : ∀ W' a b, W <+: W' → V W' a b → Mirrors target W' U (f a) (g b)) :
    Mirrors target W U (x >>= f) (y >>= g) := by
  refine fun W' m n le twins => (hx le twins).bind fun W'' a b m' n' le' _ _ twins related => ?_
  exact hf W'' a b (le.trans le') related (List.prefix_refl W'') twins

/-- What is known of more sites is known of these. -/
theorem grow (h : Mirrors target W V x y) (le : W <+: W') : Mirrors target W' V x y :=
  fun _ _ _ le' twins => h (le.trans le') twins

/-- After an answer of which nothing is said. -/
theorem seq {f : α → Action Machine γ} {g : β → Action Machine δ}
    (hx : Mirrors target W Whatever x y) (hf : ∀ a b, Mirrors target W U (f a) (g b)) :
    Mirrors target W U (x >>= f) (y >>= g) :=
  hx.bind fun _ a b le _ => (hf a b).grow le

/-- After an answer that is the same in both runs. -/
theorem bindShared {y : Action Machine α} {f : α → Action Machine γ} {g : α → Action Machine δ}
    (hx : Mirrors target W (Shared P) x y) (hf : ∀ a, P a → Mirrors target W U (f a) (g a)) :
    Mirrors target W U (x >>= f) (y >>= g) := by
  refine hx.bind fun _ a b le related => ?_
  obtain ⟨rfl, ha⟩ := related
  exact (hf b ha).grow le

/-- An answer that does not depend on the machine is given in both. -/
theorem bindExcept {e : Except Fault α} {f : α → Action Machine γ} {g : α → Action Machine δ}
    (hf : ∀ a, e = .ok a → Mirrors target W U (f a) (g a)) :
    Mirrors target W U (Action.ofExcept e >>= f) (Action.ofExcept e >>= g) := by
  cases e with
  | error e => exact .throw
  | ok a => exact hf a rfl

theorem ofExcept {e : Except Fault α} (h : ∀ a, e = .ok a → P a) :
    Mirrors target W (Shared P) (Action.ofExcept e) (Action.ofExcept e) := by
  cases e with
  | error e => exact .throw
  | ok a => exact .answer (h a rfl)

theorem need {c : Bool} {e : Fault} :
    Mirrors target W Whatever (Action.need c e) (Action.need c e) := by
  cases c with
  | true => exact .nothing
  | false => exact .throw

/-- A check that does not depend on the machine is made in both. -/
theorem bindNeed {c : Bool} {e : Fault} {f : Unit → Action Machine γ} {g : Unit → Action Machine δ}
    (hf : c = true → Mirrors target W U (f ()) (g ())) :
    Mirrors target W U (Action.need c e >>= f) (Action.need c e >>= g) :=
  .bindExcept fun _ holds => hf (require_eq_ok_iff.1 holds)

theorem bindTarget {f : Target → Action Machine γ} {g : Target → Action Machine δ}
    (hf : Mirrors target W U (f target) (g target)) :
    Mirrors target W U (getTarget >>= f) (getTarget >>= g) := by
  intro W' m n le twins
  rw [getTarget_bind, getTarget_bind, twins.target_eq.1, twins.target_eq.2]
  exact hf le twins

theorem bindGet {f : Machine → Action Machine γ} {g : Machine → Action Machine δ}
    (hf : ∀ W' m n, W <+: W' → Twins target W' m n → Mirrors target W' U (f m) (g n)) :
    Mirrors target W U (get >>= f) (get >>= g) :=
  fun W' m n le twins => hf W' m n le twins (List.prefix_refl W') twins

/-- What both machines change without regard to addresses. -/
theorem alter {change change' : Machine → Machine}
    (h : ∀ W' m n, W <+: W' → Twins target W' m n → Twins target W' (change m) (change' n)) :
    Mirrors target W Whatever (modify change) (modify change') :=
  fun W' m n le twins => .both (List.prefix_refl W') (h W' m n le twins) (.ok trivial)

/-! ### Memory -/

/-- A question to both memories. -/
theorem ask {e : Memory → Except Fault α} {d : Memory → Except Fault β}
    (h : ∀ W' (m n : Memory), W <+: W' → m.Twins target W' n → Agrees (V W') (e m) (d n)) :
    Mirrors target W V (onStore (Store.ask e)) (onStore (Store.ask d)) :=
  fun W' _ _ le twins => .both (List.prefix_refl W') twins (h W' _ _ le twins.memory)

/-- A change of both memories. -/
theorem change {e d : Memory → Except Fault Memory}
    (h : ∀ W' (m n : Memory), W <+: W' → m.Twins target W' n →
      Agrees (Memory.Twins target W') (e m) (d n)) :
    Mirrors target W Whatever (onStore (Store.change e)) (onStore (Store.change d)) := by
  intro W' m n le twins
  obtain ⟨mem, mem', left, right, memory⟩ | ⟨f, left, right⟩ :=
    (h W' _ _ le twins.memory).ok_or_error
  · rw [onStore_change_of_ok left, onStore_change_of_ok right]
    exact .both (List.prefix_refl W') (twins.withStore (List.prefix_refl W') memory) (.ok trivial)
  · rw [onStore_change_of_error left, onStore_change_of_error right]
    exact .both (List.prefix_refl W') twins (.error f)

section Access

variable {total align : Int} (twin : p.Twin W total align q)

include twin

theorem load (size : Int) :
    Mirrors target W (Shared fun _ => True) (onStore (Store.load p size align))
      (onStore (Store.load q size align)) :=
  .ask fun _ _ _ le twins => (twins.load (twin.mono le) size).mono fun _ _ same => ⟨same, trivial⟩

theorem typedLoad (ty : Ty) :
    Mirrors target W (Shared fun v => ∃ data, ty.decode target data = .ok (some v))
      (onStore (Store.typedLoad p ⟨ty, align⟩)) (onStore (Store.typedLoad q ⟨ty, align⟩)) :=
  .ask fun _ _ _ le twins => (twins.typedLoad (twin.mono le) ty).mono fun _ _ loaded =>
    twins.left_target ▸ loaded

theorem typedStore (ty : Ty) (v : Value) :
    Mirrors target W Whatever (onStore (Store.typedStore p v ⟨ty, align⟩))
      (onStore (Store.typedStore q v ⟨ty, align⟩)) :=
  .change fun _ _ _ le twins => twins.typedStore (twin.mono le) ty v

theorem deinit (ty : Ty) :
    Mirrors target W Whatever (onStore (Store.deinit p ⟨ty, align⟩))
      (onStore (Store.deinit q ⟨ty, align⟩)) :=
  .change fun _ _ _ le twins => twins.deinit (twin.mono le) ty

theorem offsetInBounds {d size' align' : Int} (start : Between total d)
    (stop : Between total (d + size')) (power : PowerOfTwo align') (dvd : align' ∣ align)
    (dvd' : align' ∣ d) :
    Mirrors target W (fun W' p' q' => p'.Twin W' size' align' q') (Machine.offsetInBounds p d)
      (Machine.offsetInBounds q d) :=
  .ask fun _ _ _ le twins => twins.offsetInBounds (twin.mono le) start stop power dvd dvd'

theorem deallocate (size : Int) (kind : AllocKind) :
    Mirrors target W Whatever (onStore (Store.deallocate p size align kind))
      (onStore (Store.deallocate q size align kind)) := by
  intro W' m n le twins
  obtain ⟨mem, mem', left, right, memory⟩ | ⟨f, left, right⟩ :=
    (twins.memory.deallocate (twin.mono le) size align kind).ok_or_error
  · obtain ⟨journal, done⟩ := onStore_deallocate_of_ok left
    obtain ⟨journal', done'⟩ := onStore_deallocate_of_ok right
    rw [done, done']
    exact .both (List.prefix_refl W') (twins.withStore (List.prefix_refl W') memory) (.ok trivial)
  · rw [onStore_deallocate_of_error left, onStore_deallocate_of_error right]
    exact .both (List.prefix_refl W') twins (.error f)

end Access

/-- An allocation is made in both memories or in none, unless a chooser fails. -/
theorem allocate {size align : Int} {kind : AllocKind} :
    Mirrors target W (fun W' p q => p.Twin W' size align q)
      (onStore (Store.allocate size align kind)) (onStore (Store.allocate size align kind)) := by
  intro W' m n _ twins
  obtain ⟨c, c', left, right, -⟩ | ⟨f, left, right⟩ :=
    (twins.memory.constraints size align).ok_or_error
  · rcases run : onStore (Store.allocate size align kind) m with ⟨e | p, m'⟩
    · obtain ⟨mem, failed, rfl⟩ := onStore_allocate_eq_error run
      exact .left ⟨e, rfl, Memory.not_served_of_allocate failed left⟩
    · rcases run' : onStore (Store.allocate size align kind) n with ⟨e | q, n'⟩
      · obtain ⟨mem, failed, rfl⟩ := onStore_allocate_eq_error run'
        exact .right ⟨e, rfl, Memory.not_served_of_allocate failed right⟩
      · obtain ⟨mem, journal, made, rfl⟩ := onStore_allocate_eq_ok run
        obtain ⟨mem', journal', made', rfl⟩ := onStore_allocate_eq_ok run'
        obtain ⟨w, memory, twin⟩ := twins.memory.made made made'
        exact .both (List.prefix_append W' [w]) (twins.withStore (List.prefix_append W' [w]) memory)
          (.ok twin)
  · -- There may be no such allocation, and the choosers are not asked.
    have refused {k : Machine} (h : k.store.memory.constraints size align = .error f) :
        onStore (Store.allocate size align kind) k = (.error f, k) := by
      have failed : k.store.memory.allocate size align kind = (.error f, k.store.memory) := by
        rw [Memory.allocate, h]
      unfold onStore Action.zoom Store.allocate
      rw [Action.apply_bind]
      simp only [Action.zoom, Action.ofStep, failed]
    rw [refused left, refused right]
    exact .both (List.prefix_refl W') twins (.error f)

/-! ### Frames -/

/-- The innermost frames are twins. -/
theorem frame : Mirrors target W (Frame.Twins target) frame Machine.frame := by
  refine .bindGet fun W' m n _ twins => ?_
  obtain ⟨left, right⟩ | ⟨f, g, _, _, left, right, top, -⟩ := twins.frames
  · rw [left, right]
    exact .throw
  · rw [left, right]
    exact .pure fun _ le => top.mono le

theorem modifyFrame {change change' : Frame → Frame}
    (h : ∀ W' f g, W <+: W' → f.Twins target W' g → (change f).Twins target W' (change' g)) :
    Mirrors target W Whatever (modifyFrame change) (Machine.modifyFrame change') :=
  .alter fun W' m n le twins => twins.withStack (by
    obtain ⟨left, right⟩ | ⟨f, g, fs, gs, left, right, top, rest⟩ := twins.frames
    · rw [left, right]
      exact .nil
    · rw [left, right]
      exact .cons (h W' f g le top) rest)

theorem push (h : f.Twins target W g) :
    Mirrors target W Whatever (modify fun m : Machine => { m with stack := f :: m.stack })
      (modify fun m : Machine => { m with stack := g :: m.stack }) :=
  .alter fun _ _ _ le twins => twins.withStack (.cons (h.mono le) twins.stack)

theorem note (e d : Event) : Mirrors target W Whatever (Machine.note e) (Machine.note d) :=
  .alter fun W' _ _ _ twins => twins.withStore (List.prefix_refl W') twins.memory

theorem print (line : String) (toStderr : Bool) :
    Mirrors target W Whatever (Machine.print line toStderr) (Machine.print line toStderr) :=
  .alter fun _ _ _ _ twins => by
    cases toStderr with
    | true => exact { twins with stderr := congrArg (· ++ [line]) twins.stderr }
    | false => exact { twins with stdout := congrArg (· ++ [line]) twins.stdout }

end Mirrors

end Machine

end AbstractMachine
