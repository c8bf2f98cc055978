/-
# AbstractMachine.Proofs.Machine.Steps — every instruction keeps a machine sound

Statement by statement and terminator by terminator, along their texts: what they evaluate may be
taken in hand, what they store was in hand, and the frames and the memory of locals change together.
`Moves` is the form of all these lemmas. Where a frame stands beside the stack, because it is about
to be pushed or was just popped, it says which one stands there before and which one after.

The last theorems are those about a step and about the beginning of an execution.
-/
import AbstractMachine.Proofs.Machine.Invariant

namespace AbstractMachine

namespace Machine

variable {strict : Prop} {L : Fragment} {m₀ m : Machine} {beside : List Frame}
  {hand : AllocId → Prop} {α β : Type} {p : Pointer}

/-- An action keeps a machine sound. What it yields may be taken in hand, and it may exchange the
frames beside the stack. -/
def Moves (strict : Prop) (L : Fragment) (m₀ : Machine) (beside : List Frame)
    (hand : AllocId → Prop) (x : Action Machine α) (after : α → List Frame)
    (yields : α → AllocId → Prop) : Prop :=
  Action.Meets (fun m => Sound strict L m₀ (beside ++ m.stack) hand m) x
    (fun a m => Sound strict L m₀ (after a ++ m.stack) (fun id => hand id ∨ yields a id) m)
    (Failed strict m₀)

/-- An action keeps a machine sound, with the same frames beside its stack. -/
abbrev Steps (strict : Prop) (L : Fragment) (m₀ : Machine) (beside : List Frame)
    (hand : AllocId → Prop) (x : Action Machine α) (yields : α → AllocId → Prop) : Prop :=
  Moves strict L m₀ beside hand x (fun _ => beside) yields

/-- An answer without names. -/
abbrev nameless : α → AllocId → Prop := fun _ _ => False

/-- Names that an evaluation may come by: those of a sound machine and those in hand are among
them. -/
structure Allows (strict : Prop) (m : Machine) (hand W : AllocId → Prop) : Prop where
  numbered : m.store.memory.Numbered
  within : ∀ id, m.Holds id → W id
  hand : ∀ id, hand id → W id
  lax : ¬strict → ∀ id, W id

theorem allows (h : Sound strict L m₀ (beside ++ m.stack) hand m) :
    Allows strict m hand fun id => strict → m.store.memory.Owned id where
  numbered := h.housed.numbered
  within id holds s := h.named s id (.inl (holds.mono fun _ => List.mem_append_right beside))
  hand id inHand s := h.named s id (.inr inHand)
  lax not _ s := absurd s not

/-- A fault that leaves a machine as it is, and that has a cause. -/
theorem Sound.broken (h : Sound strict L m₀ (beside ++ m.stack) hand m) {f : Fault}
    (cause : m.Cause (fun id => strict → m.store.memory.Owned id) f) : Failed strict m₀ f m :=
  h.failed (fun _ => List.mem_append_right beside) cause

namespace Moves

variable {x : Action Machine α} {f : α → Action Machine β} {yields : α → AllocId → Prop}
  {next : β → AllocId → Prop} {mid : α → List Frame} {after : β → List Frame}
  {k : Frame → Action Machine β}

theorem bind (hx : Moves strict L m₀ beside hand x mid yields)
    (hf : ∀ a, Moves strict L m₀ (mid a) (fun id => hand id ∨ yields a id) (f a) after next) :
    Moves strict L m₀ beside hand (x >>= f) after next :=
  Action.Meets.bind hx fun a => (hf a).consequence (fun _ h => h)
    (fun _ _ h => Sound.mono h fun _ => .imp_left .inl) fun _ _ h => h

/-- After an answer without names nothing more is in hand. -/
theorem seq (hx : Moves strict L m₀ beside hand x mid nameless)
    (hf : ∀ a, Moves strict L m₀ (mid a) hand (f a) after next) :
    Moves strict L m₀ beside hand (x >>= f) after next :=
  Action.Meets.bind hx fun a => (hf a).consequence (fun _ h => Sound.mono h fun _ => .inl)
    (fun _ _ h => h) fun _ _ h => h

theorem pure {a : α} {yields : α → AllocId → Prop} (sub : ∀ id, yields a id → hand id) :
    Steps strict L m₀ beside hand (pure a) yields :=
  Action.Meets.pure fun _ h => h.mono fun id have' => have'.elim (fun h => h) (sub id)

theorem nothing {a : α} : Steps strict L m₀ beside hand (Pure.pure a) nameless :=
  .pure fun _ => False.elim

/-- An action that changes nothing but the stack, and nothing else that matters. -/
theorem change {change : Machine → Machine} {after : List Frame} {yields : AllocId → Prop}
    (program : ∀ m, (change m).program = m.program)
    (memory : ∀ m, (change m).store.memory = m.store.memory)
    (casts : ∀ m, (change m).store.casts = m.store.casts)
    (frames : ∀ m, Sound strict L m₀ (beside ++ m.stack) hand m →
      Sound strict L m₀ (after ++ (change m).stack) (fun id => hand id ∨ yields id) m) :
    Moves strict L m₀ beside hand (modify change) (fun _ => after) fun _ => yields :=
  Action.Meets.modify fun m h =>
    (frames m h).congr (program m) (memory m) (congrArg Casts.exposed (casts m))

/-- An action that changes nothing that matters. -/
theorem changeOther {change : Machine → Machine}
    (program : ∀ m, (change m).program = m.program)
    (memory : ∀ m, (change m).store.memory = m.store.memory)
    (casts : ∀ m, (change m).store.casts = m.store.casts)
    (stack : ∀ m, (change m).stack = m.stack) :
    Steps strict L m₀ beside hand (modify change : Action Machine PUnit) nameless :=
  .change program memory casts fun m h => by
    rw [stack]
    exact h.nameless

/-- Evaluating is done by the theory of evaluation. -/
theorem evaluates (h : ∀ {m W}, Allows strict m hand W →
      Evaluates W m x fun a => ∀ id, yields a id → W id) :
    Steps strict L m₀ beside hand x yields where
  ok {m m' a} sound run := by
    have allows := allows sound
    obtain ⟨evolved, new⟩ := (h allows).ok (.refl allows.within) run
    rw [evolved.stack]
    exact sound.of_evolved evolved new
  error {m m' e} sound run := by
    have allows := allows sound
    obtain ⟨evolved, cause⟩ := (h allows).error (.refl allows.within) run
    have sound := sound.of_evolved evolved fun _ (new : False) => new.elim
    rw [← evolved.stack] at sound
    refine sound.broken ?_
    -- Which names are owned is a question of the outline, which evaluating keeps.
    simpa only [Memory.owned_iff_of_outline_eq evolved.memory] using cause

/-- A program may be ended anywhere. -/
theorem ends {e : Fault} (h : e.Ends) :
    Moves strict L m₀ beside hand (throw e : Action Machine α) mid yields :=
  Action.Meets.throw fun _ sound => Sound.broken sound (.ends h)

theorem throw {e : Fault} (h : e.Ordinary) :
    Moves strict L m₀ beside hand (throw e : Action Machine α) mid yields :=
  Action.Meets.throw fun _ sound => Sound.broken sound (.refused (.inl h))

theorem ofExcept {e : Except Fault α} (h : FailsIn Fault.Ordinary e) :
    Steps strict L m₀ beside hand (Action.ofExcept e) nameless :=
  .evaluates fun _ => (Evaluates.ofExcept h).mono fun _ _ _ => False.elim

/-- An answer that is given by what is known may be used as such. -/
theorem bind_ofExcept {e : Except Fault α} (h : FailsIn Fault.Ordinary e)
    (hf : ∀ a, e = .ok a → Moves strict L m₀ beside hand (f a) after next) :
    Moves strict L m₀ beside hand (Action.ofExcept e >>= f) after next := by
  cases e with
  | error g =>
      exact Action.Meets.throw fun _ sound => Sound.broken sound (.refused (.inl (h g rfl)))
  | ok a => exact hf a rfl

/-- A question about the machine that looks into no memory. -/
theorem ask {f : Machine → Except Fault α} (h : ∀ m, FailsIn Fault.Ordinary (f m)) :
    Steps strict L m₀ beside hand (Action.ask f) nameless :=
  .evaluates fun _ => (Action.Keeps.ask (fun _ _ _ _ => trivial)
    fun m _ e he => .refused (.inl (h m e he))).mono fun _ (_ : True) _ => False.elim

theorem need {c : Bool} {e : Fault} (h : e.Ordinary) :
    Steps strict L m₀ beside hand (Action.need c e) nameless :=
  .evaluates fun _ => (Evaluates.need h).mono fun _ _ _ => False.elim

theorem get : Steps strict L m₀ beside hand (get : Action Machine Machine) nameless :=
  Action.Meets.get fun _ sound => Sound.nameless sound

theorem getTarget : Steps strict L m₀ beside hand getTarget nameless :=
  .evaluates fun _ => Evaluates.getTarget.mono fun _ _ _ => False.elim

theorem frame : Steps strict L m₀ beside hand Machine.frame nameless :=
  .evaluates fun _ => Evaluates.frame.mono fun _ _ _ => False.elim

/-- The innermost frame is one of a function of the program. -/
theorem bind_frame (hf : ∀ g : Frame, g.function.In L →
      Moves strict L m₀ beside hand (k g) after next) :
    Moves strict L m₀ beside hand (Machine.frame >>= k) after next := by
  have inside : Action.Meets (fun m => Sound strict L m₀ (beside ++ m.stack) hand m) Machine.frame
      (fun g m => Sound strict L m₀ (beside ++ m.stack) hand m ∧ g.function.In L)
      (Failed strict m₀) := by
    refine ⟨fun {m m' g} sound run => ?_, fun {m m' e} sound run => ?_⟩
    · obtain ⟨rfl, rest, stack⟩ := frame_eq_ok_iff.1 run
      exact ⟨sound, sound.code g (by simp [stack])⟩
    · obtain ⟨rfl, -, rfl⟩ := frame_eq_error run
      exact sound.broken (.refused (.inl trivial))
  exact inside.bind fun g => .assume (hf g)

theorem note (e : Event) : Steps strict L m₀ beside hand (note e) nameless :=
  Moves.changeOther (fun _ => rfl) (fun _ => rfl) (fun _ => rfl) fun _ => rfl

theorem expose (hp : ∀ id, p.provenance = some id → hand id) :
    Steps strict L m₀ beside hand (onStore (Store.expose p)) nameless :=
  .evaluates fun allows => (Evaluates.expose fun id named => allows.hand id (hp id named)).mono
    fun _ _ _ => False.elim

theorem fromAddr (addr : Int) :
    Steps strict L m₀ beside hand (fromAddr addr) fun p id => p.provenance = some id :=
  .evaluates fun _ => Evaluates.fromAddr addr

theorem print (line : String) (toStderr : Bool) :
    Steps strict L m₀ beside hand (print line toStderr) nameless := by
  refine .changeOther ?_ ?_ ?_ ?_ <;> intro m <;> cases toStderr <;> rfl

theorem offsetInBounds {offset : Int} (hp : ∀ id, p.provenance = some id → hand id) :
    Steps strict L m₀ beside hand (offsetInBounds p offset) fun q id => q.provenance = some id :=
  .evaluates fun allows => Evaluates.offsetInBounds fun id named => allows.hand id (hp id named)

theorem typedLoad {place : PlaceTy} (hp : ∀ id, p.provenance = some id → hand id) :
    Steps strict L m₀ beside hand (onStore (Store.typedLoad p place)) fun v id => v.Carries id :=
  .evaluates fun allows => evaluates_typedLoad fun id named => allows.hand id (hp id named)

theorem typedStore {place : PlaceTy} {v : Value} (hp : ∀ id, p.provenance = some id → hand id)
    (hv : ∀ id, v.Carries id → hand id) :
    Steps strict L m₀ beside hand (onStore (Store.typedStore p v place)) nameless :=
  .evaluates fun allows => (evaluates_typedStore allows.numbered
    (fun id named => allows.hand id (hp id named))
    fun id carries => allows.hand id (hv id carries)).mono fun _ _ _ => False.elim

theorem deinit {place : PlaceTy} (hp : ∀ id, p.provenance = some id → hand id) :
    Steps strict L m₀ beside hand (onStore (Store.deinit p place)) nameless :=
  .evaluates fun allows => (evaluates_deinit allows.numbered
    fun id named => allows.hand id (hp id named)).mono fun _ _ _ => False.elim

/-- The innermost frame may go on to another place of its code. -/
theorem modifyFrame {change : Frame → Frame} (same : ∀ f : Frame, f.SameLocals (change f))
    (result : ∀ f, (change f).result = f.result) :
    Steps strict L m₀ beside hand (modifyFrame change) nameless := by
  refine Moves.change (fun _ => rfl) (fun _ => rfl) (fun _ => rfl) fun m h => ?_
  have kept : List.Forall₂ Frame.SameLocals (beside ++ m.stack)
      (beside ++ m.stack.modifyHead change) := by
    refine List.rel_append (List.forall₂_same.2 fun f _ => .refl f) ?_
    cases m.stack with
    | nil => exact .nil
    | cons f rest => exact .cons (same f) (List.forall₂_same.2 fun g _ => .refl g)
  refine (h.of_sameLocals kept ?_).nameless
  -- No frame waits for a place that none waited for before.
  intro g hg r hr
  refine .inl ?_
  cases hs : m.stack with
  | nil =>
      rw [hs] at hg
      exact ⟨g, hg, hr⟩
  | cons f rest =>
      rw [hs] at hg
      rcases List.mem_append.1 hg with hg | hg
      · exact ⟨g, List.mem_append_left _ hg, hr⟩
      rcases List.mem_cons.1 hg with rfl | hg
      · exact ⟨f, by simp, result f ▸ hr⟩
      · exact ⟨g, by simp [hg], hr⟩

end Moves

/-! ## Expressions -/

section Expressions

variable (constants : ∀ v ty, L.value (.constant v ty) → strict → ∀ id, ¬v.Carries id)

include constants

theorem constant_named {W : AllocId → Prop} (allows : Allows strict m hand W) (v : Value) (ty : Ty)
    (h : L.value (.constant v ty)) : Named W (v, ty) := by
  intro id carries
  by_cases s : strict
  · exact absurd carries (constants v ty h s id)
  · exact allows.lax s id

theorem steps_evalValue {e : ValueExpr} (he : e.In L) :
    Steps strict L m₀ beside hand (evalValue e) fun a id => a.1.Carries id :=
  .evaluates fun allows => evaluates_evalValue allows.numbered allows.within
    (constant_named constants allows) e he

theorem steps_evalPlace {place : PlaceExpr} (h : place.In L) :
    Steps strict L m₀ beside hand (evalPlace place) fun a id => a.1.provenance = some id :=
  .evaluates fun allows => evaluates_evalPlace allows.numbered allows.within
    (constant_named constants allows) place h

theorem steps_evalAll {es : List ValueExpr} (h : ∀ e ∈ es, e.In L) :
    Steps strict L m₀ beside hand (evalAll es) fun vs id => ∃ v ∈ vs, v.1.Carries id :=
  .evaluates fun allows => (evaluates_evalAll allows.numbered allows.within
    (constant_named constants allows) es (ValueExpr.allIn_iff.2 h)).mono
      fun _ names id ⟨v, hv, carries⟩ => names v hv id carries

end Expressions

/-! ## Memory for locals and for the heap -/

/-- The memory of a local is made along with its entry in the frame. -/
theorem moves_beginLocal (f : Frame) (name : String) :
    Moves strict L m₀ [f] hand (beginLocal f name) (fun r => [r.2])
      fun r id => r.1.provenance = some id where
  ok {m m' r} sound run := by
    obtain ⟨p, g⟩ := r
    obtain ⟨place, a, mem, journal, dead, declared, made, rfl, rfl⟩ := beginLocal_eq_ok run
    exact sound.begin dead declared made
  error {m m' e} sound run := by
    obtain ⟨rfl, ordinary⟩ | ⟨size, align, mem, refused, rfl⟩ := beginLocal_eq_error run
    · exact sound.broken (.refused (.inl ordinary))
    · exact sound.failed_allocate (fun _ => List.mem_append_right _) refused

theorem steps_storageLive (name : String) :
    Steps strict L m₀ [] hand (storageLive name) nameless where
  ok {m m' u} sound run := by
    simp only [storageLive, Action.bind_eq_ok_iff, frame_eq_ok_iff] at run
    obtain ⟨f, _, ⟨rfl, rest, stack⟩, ⟨p, g⟩, n, begun, put⟩ := run
    rw [List.nil_append, stack] at sound
    obtain ⟨place, a, mem, journal, dead, declared, made, rfl, rfl⟩ := beginLocal_eq_ok begun
    rw [modifyFrame_of_cons (m := m.withMemory mem journal) stack] at put
    obtain ⟨-, rfl⟩ := Prod.mk.inj put
    have begun : Sound strict L m₀ (_ :: rest) _ (m.withMemory mem journal) :=
      sound.begin dead declared made
    exact Sound.nameless ((begun.mono fun _ => .inl).congr rfl rfl rfl)
  error {m m' e} sound run := by
    simp only [storageLive, Action.bind_eq_error_iff, frame_eq_ok_iff] at run
    obtain empty | ⟨f, _, ⟨rfl, rest, stack⟩, failed | ⟨⟨p, g⟩, n, -, put⟩⟩ := run
    · obtain ⟨rfl, -, rfl⟩ := frame_eq_error empty
      exact sound.broken (.refused (.inl trivial))
    · obtain ⟨rfl, ordinary⟩ | ⟨size, align, mem, refused, rfl⟩ := beginLocal_eq_error failed
      · exact sound.broken (.refused (.inl ordinary))
      · exact sound.failed_allocate (fun _ => List.mem_append_right _) refused
    · cases put

/-- A local that is live can be ended. -/
theorem Sound.exists_storageDead {f : Frame} {rest : List Frame} {name : String}
    (h : Sound strict L m₀ m.stack hand m) (stack : m.stack = f :: rest)
    (found : f.locals.find? name = some p) :
    ∃ m', storageDead name m = (.ok (), m') ∧ Sound strict L m₀ m'.stack hand m' := by
  rw [stack] at h
  have erased : Sound strict L m₀ (f :: rest) hand
      { m with stack := { f with locals := f.locals.erase name } :: rest } := h.congr rfl rfl rfl
  obtain ⟨mem, journal, freed, sound⟩ := erased.exists_freeLocal found
  refine ⟨_, Eq.trans ?_ freed, sound⟩
  unfold storageDead
  rw [Action.apply_bind_of_ok (frame_eq_ok_iff.2 ⟨rfl, rest, stack⟩)]
  simp only [found]
  rw [Action.apply_bind_of_ok (modifyFrame_of_cons stack)]

theorem steps_storageDead (name : String) :
    Steps strict L m₀ [] hand (storageDead name) nameless where
  ok {m m' u} sound run := by
    have begun := run
    simp only [storageDead, Action.bind_eq_ok_iff, frame_eq_ok_iff] at begun
    obtain ⟨f, _, ⟨rfl, rest, stack⟩, begun⟩ := begun
    cases found : f.locals.find? name with
    | none =>
        rw [found] at begun
        cases begun
    | some p =>
        obtain ⟨n, ended, sound⟩ := Sound.exists_storageDead sound stack found
        obtain ⟨-, rfl⟩ := Prod.mk.inj (ended.symm.trans run)
        exact sound.nameless
  error {m m' e} sound run := by
    have begun := run
    simp only [storageDead, Action.bind_eq_error_iff, frame_eq_ok_iff] at begun
    obtain empty | ⟨f, _, ⟨rfl, rest, stack⟩, begun⟩ := begun
    · obtain ⟨rfl, -, rfl⟩ := frame_eq_error empty
      exact sound.broken (.refused (.inl trivial))
    cases found : f.locals.find? name with
    | none =>
        rw [found] at begun
        cases begun
        exact sound.broken (.refused (.inl trivial))
    | some p =>
        -- A live local is housed, so ending it does not fail.
        obtain ⟨n, ended, -⟩ := Sound.exists_storageDead sound stack found
        obtain ⟨⟨⟩, -⟩ := Prod.mk.inj (ended.symm.trans run)

/-- Memory for other things than locals may be made. -/
theorem steps_allocate {size align : Int} {kind : AllocKind} (other : kind ≠ .stack) :
    Steps strict L m₀ beside hand (onStore (Store.allocate size align kind)) fun p id =>
      kind = .heap ∧ p.provenance = some id where
  ok {m m' p} sound run := by
    obtain ⟨mem, journal, allocated, rfl⟩ := onStore_allocate_eq_ok run
    obtain ⟨a, made⟩ := Memory.made_of_allocate allocated
    exact Sound.made sound made other fun _ new => new
  error {m m' e} sound run := by
    obtain ⟨mem, refused, rfl⟩ := onStore_allocate_eq_error run
    exact sound.failed_allocate (fun _ => List.mem_append_right _) refused

/-- Only the memory of locals may not be freed by a program. -/
theorem steps_deallocate {size align : Int} {kind : AllocKind} (other : kind ≠ .stack)
    (hp : ∀ id, p.provenance = some id → hand id) :
    Steps strict L m₀ beside hand (onStore (Store.deallocate p size align kind)) nameless where
  ok {m m' u} sound run := by
    obtain ⟨mem, journal, freed, rfl⟩ := onStore_deallocate_eq_ok run
    obtain ⟨id, a, -, found, -, rfl, -, -, -, rfl⟩ := Memory.deallocate_eq_ok_iff.1 freed
    obtain rfl := sound.housed.numbered.id_eq found
    exact (sound.freed found other).nameless
  error {m m' e} sound run := by
    obtain ⟨failed, rfl⟩ := onStore_deallocate_eq_error run
    have hp (id : AllocId) (named : p.provenance = some id) (s : strict) :
        m'.store.memory.Owned id := sound.named s id (.inr (hp id named))
    exact sound.broken (.refused (Memory.failsIn_deallocate hp e failed))

/-! ## Intrinsics -/

theorem steps_printAll (toStderr : Bool) (arguments : List (Value × Ty)) :
    Steps strict L m₀ beside hand (printAll toStderr arguments) nameless := by
  induction arguments generalizing hand with
  | nil => exact .nothing
  | cons a rest ih =>
      rw [printAll]
      exact .seq (.ofExcept (failsIn_printed a)) fun line => .seq (.print line toStderr) fun _ => ih

theorem provenance_of_ptrArgument {a : Value × Ty} {id : AllocId} (h : ptrArgument a = .ok p)
    (named : p.provenance = some id) : a.1.Carries id := by
  unfold ptrArgument at h
  split at h
  · obtain rfl := Except.ok.inj h
    exact .ptr named
  · cases h

/-- An intrinsic yields no names but those of its arguments, of what is exposed, and of the memory
that it makes. -/
theorem steps_performIntrinsic (op : IntrinsicOp) {arguments : List (Value × Ty)}
    (h : ∀ a ∈ arguments, ∀ id, a.1.Carries id → hand id) :
    Steps strict L m₀ beside hand (performIntrinsic op arguments) fun a id => a.1.Carries id := by
  have unit {hand : AllocId → Prop} : Steps strict L m₀ beside hand
      (pure (.unit, .unit) : Action Machine (Value × Ty)) fun a id => a.1.Carries id :=
    .pure fun _ carries => absurd carries Value.not_carries_unit
  unfold performIntrinsic
  split
  · exact .seq (steps_printAll _ _) fun _ => unit
  · exact .seq (steps_printAll _ _) fun _ => unit
  · exact .ends trivial
  · exact .ends trivial
  · refine .seq (.ofExcept (failsIn_intArgument _)) fun size => ?_
    refine .seq (.ofExcept (failsIn_intArgument _)) fun align => ?_
    refine .bind (steps_allocate nofun) fun p => .pure fun id carries => ?_
    exact .inr ⟨rfl, Value.carries_ptr_iff.1 carries⟩
  · refine .bind_ofExcept (failsIn_ptrArgument _) fun p known => ?_
    refine .seq (.ofExcept (failsIn_intArgument _)) fun size => ?_
    refine .seq (.ofExcept (failsIn_intArgument _)) fun align => ?_
    refine .seq (steps_deallocate nofun fun id named => ?_) fun _ => unit
    exact h _ List.mem_cons_self id (provenance_of_ptrArgument known named)
  · refine .bind_ofExcept (failsIn_ptrArgument _) fun p known => ?_
    refine .seq (.expose fun id named => ?_) fun addr => .seq .getTarget fun _ => ?_
    · exact h _ List.mem_cons_self id (provenance_of_ptrArgument known named)
    · exact .pure fun _ carries => absurd carries (Value.not_carries_int addr)
  · refine .seq (.ofExcept (failsIn_intArgument _)) fun addr => .seq .getTarget fun target => ?_
    refine .seq (.ofExcept (IntTy.failsIn_canRepresent _ _)) fun inBounds => ?_
    refine .seq (.need trivial) fun _ => .bind (.fromAddr addr) fun p => .pure fun id carries => ?_
    exact .inr (Value.carries_ptr_iff.1 carries)
  · exact .seq (.need trivial) fun _ => unit
  · exact .throw trivial

theorem steps_jump (block : String) : Steps strict L m₀ beside hand (jump block) nameless :=
  .seq .frame fun _ => .seq (.need trivial) fun _ =>
    .modifyFrame (fun _ => ⟨rfl, rfl, rfl⟩) fun _ => rfl

theorem steps_storeResult {v : Value} {ty : Ty} {place : Option (Pointer × PlaceTy)}
    (hv : ∀ id, v.Carries id → hand id)
    (hp : ∀ r ∈ place, ∀ id, r.1.provenance = some id → hand id) :
    Steps strict L m₀ beside hand (storeResult v ty place) nameless := by
  cases place with
  | none => exact .nothing
  | some r =>
      exact .seq (.need trivial) fun _ => .typedStore (hp r rfl) hv

/-! ## Parts of instructions -/

theorem steps_beginStep (f : Frame) (block : String) :
    Steps strict L m₀ beside hand (beginStep f block) nameless :=
  .seq (.changeOther (fun _ => rfl) (fun _ => rfl) (fun _ => rfl) fun _ => rfl) fun _ => .note _

theorem steps_storeTag {align : Int} (writes : List TagWrite)
    (hp : ∀ id, p.provenance = some id → hand id) :
    Steps strict L m₀ beside hand (storeTag p align writes) nameless := by
  induction writes generalizing hand with
  | nil => exact .nothing
  | cons w rest ih =>
      rw [storeTag]
      refine .bind (.offsetInBounds hp) fun q => .seq (.typedStore ?_ ?_) fun _ => ih ?_
      · exact fun id named => .inr named
      · exact fun id carries => absurd carries (Value.not_carries_int w.value)
      · exact fun id named => .inl (hp id named)

/-- Retagging a value changes nothing, and brings in no other names. -/
theorem steps_retagValue {ty : Ty} {v : Value} (hv : ∀ id, v.Carries id → hand id) :
    Steps strict L m₀ beside hand (onStore (Store.ask fun mem => mem.retagValue ty v))
      fun w id => w.Carries id :=
  .evaluates fun allows => .ask
    (fun _ _ _ hw id carries => allows.hand id (hv id (Memory.carries_of_retagValue ty hw carries)))
    fun _ => Memory.failsIn_retagValue ty fun id carries => allows.hand id (hv id carries)

/-! ## Frames that come and go -/

/-- The frame of a function of the program is put beside the stack. -/
theorem moves_newFrame (code : m₀.program.In L) (name : String) :
    Moves strict L m₀ [] hand (newFrame name) (fun f => [f]) nameless where
  ok {m m' f} sound run := by
    obtain ⟨rfl, function, found, rfl⟩ := newFrame_eq_ok_iff.1 run
    rw [sound.program] at found
    exact Sound.nameless (sound.cons rfl rfl (code _ (Table.mem_entries_of_find? found)))
  error {m m' e} sound run := by
    obtain ⟨rfl, rfl⟩ := newFrame_eq_error run
    exact sound.broken (.refused (.inl trivial))

/-- The frame beside the stack is told which place waits for its result. -/
theorem Moves.awaiting {x : Action Machine α} {after : α → List Frame}
    {yields : α → AllocId → Prop} {f : Frame} {r : Pointer × PlaceTy}
    (hr : ∀ id, r.1.provenance = some id → hand id)
    (h : Moves strict L m₀ [{ f with result := some r }] hand x after yields) :
    Moves strict L m₀ [f] hand x after yields := by
  refine h.consequence (fun m sound => ?_) (fun _ _ h => h) fun _ _ h => h
  refine Sound.of_sameLocals sound ?_ fun g hg q hq => ?_
  · exact .cons ⟨rfl, rfl, rfl⟩ (List.forall₂_same.2 fun g _ => .refl g)
  · rcases List.mem_cons.1 hg with rfl | hg
    · obtain rfl := Option.some.inj hq
      exact .inr hr
    · exact .inl ⟨g, List.mem_cons_of_mem f hg, hq⟩

theorem moves_push (f : Frame) :
    Moves strict L m₀ [f] hand
      (modify fun m => { m with stack := f :: m.stack } : Action Machine PUnit) (fun _ => [])
      nameless :=
  .change (fun _ => rfl) (fun _ => rfl) (fun _ => rfl) fun _ sound => sound.nameless

/-- The innermost frame stands beside the stack once it is popped. -/
theorem moves_popFrame :
    Moves strict L m₀ [] hand popFrame (fun f => [f]) fun f id => f.Holds id where
  ok {m m' f} sound run := by
    obtain ⟨stack, same⟩ := popFrame_eq_ok_iff.1 run
    rw [List.nil_append, stack] at sound
    have kept : Sound strict L m₀ (f :: m'.stack) hand m' := by
      refine sound.congr ?_ ?_ ?_ <;> rw [same]
    exact kept.take.mono fun id => .imp_right fun holds => ⟨f, List.mem_cons_self, holds⟩
  error {m m' e} sound run := by
    obtain ⟨rfl, -, rfl⟩ := popFrame_eq_error run
    exact sound.broken (.refused (.inl trivial))

theorem steps_deliver {v : Value} {ty : Ty} {r : Option (Pointer × PlaceTy)}
    (hv : ∀ id, v.Carries id → hand id)
    (hr : ∀ q ∈ r, ∀ id, q.1.provenance = some id → hand id) :
    Steps strict L m₀ beside hand (deliver v ty r) nameless := by
  cases r with
  | none => exact .nothing
  | some q => exact .typedStore (hr q rfl) hv

theorem moves_freeLocals {f : Frame} {entries : List (String × Pointer)}
    (h : f.locals.entries = entries) :
    Moves strict L m₀ [f] hand (freeLocals f entries) (fun _ => []) nameless where
  ok {m m' u} sound run := by
    subst h
    obtain ⟨mem, journal, done, sound⟩ := Sound.exists_freeLocals (f := f) sound
    obtain ⟨-, rfl⟩ := Prod.mk.inj (done.symm.trans run)
    exact sound.nameless
  error {m m' e} sound run := by
    subst h
    -- The memory of the locals is there to be freed, so there is no fault.
    obtain ⟨mem, journal, done, -⟩ := Sound.exists_freeLocals (f := f) sound
    obtain ⟨⟨⟩, -⟩ := Prod.mk.inj (done.symm.trans run)

theorem steps_resume : Steps strict L m₀ beside hand resume nameless where
  ok {m m' u} sound run := by
    obtain ⟨rfl, -⟩ := resume_eq_ok run
    exact sound.nameless
  error {m m' e} sound run := by
    obtain ⟨rfl, ⟨-, rfl⟩ | rfl⟩ := resume_eq_error run
    · exact sound.broken (.ends trivial)
    · exact sound.broken (.refused (.inl trivial))

/-- The frame that is left stands beside the stack until it is cleaned up. -/
theorem moves_handOver : Moves strict L m₀ [] hand handOver (fun f => [f]) nameless := by
  refine .bind moves_popFrame fun f => ?_
  cases found : f.locals.find? f.function.result with
  | none => exact .throw trivial
  | some p =>
      -- The result is read through a local of the frame that was popped, whose names are in hand.
      have entry := Table.mem_entries_of_find? found
      refine .seq (.ofExcept (f.failsIn_localTy _)) fun place => ?_
      refine .bind (.typedLoad fun _ named => .inr (.slot entry named)) fun v => ?_
      refine .seq (steps_deliver (fun _ carries => .inr carries) fun q hq _ named => ?_) fun _ => ?_
      · exact .inl (.inr (.result hq named))
      · exact Action.Meets.pure fun _ sound => sound.nameless

theorem steps_execReturn : Steps strict L m₀ [] hand execReturn nameless := by
  rw [execReturn_eq]
  exact .seq moves_handOver fun f => .seq (moves_freeLocals rfl) fun _ =>
    .seq (.note _) fun _ => steps_resume

/-! ## Instructions -/

section Instructions

variable (constants : ∀ v ty, L.value (.constant v ty) → strict → ∀ id, ¬v.Carries id)

include constants

theorem steps_evalResult {place : Option PlaceExpr} (h : ∀ e ∈ place, e.In L) :
    Steps strict L m₀ beside hand (evalResult place) fun a id =>
      ∃ r ∈ a, r.1.provenance = some id := by
  cases place with
  | none => exact .pure nofun
  | some e =>
      refine .bind (steps_evalPlace constants (h e rfl)) fun r => .pure ?_
      rintro id ⟨_, ⟨⟩, named⟩
      exact .inr named

theorem steps_execIntrinsic {op : IntrinsicOp} {arguments : List ValueExpr}
    {result : Option PlaceExpr} {next : Option String}
    (h : (Terminator.intrinsic op arguments result next).In L) :
    Steps strict L m₀ beside hand (execIntrinsic op arguments result next) nameless := by
  obtain ⟨-, harguments, hresult⟩ := h
  refine .bind (steps_evalAll constants harguments) fun vs => ?_
  refine .bind (steps_evalResult constants hresult) fun place => ?_
  refine .bind (steps_performIntrinsic op fun a ha id carries => ?_) ?_
  · exact .inl (.inr ⟨a, ha, carries⟩)
  rintro ⟨v, ty⟩
  refine .bind (steps_storeResult (fun _ carries => .inr carries) fun r hr id named => ?_) ?_
  · exact .inl (.inr ⟨r, hr, named⟩)
  intro _
  cases next with
  | none => exact .throw trivial
  | some block => exact steps_jump block

/-- Every statement keeps a machine sound. -/
theorem steps_execute {s : Statement} (h : s.In L) :
    Steps strict L m₀ [] hand (execute s) nameless := by
  cases s with
  | assign destination source =>
      refine .bind (steps_evalValue constants h.2) ?_
      rintro ⟨v, _⟩
      refine .bind (steps_evalPlace constants h.1) ?_
      rintro ⟨p, place⟩
      exact .typedStore (fun _ named => .inr named) fun _ carries => .inl (.inr carries)
  | finalize place =>
      refine .bind (steps_evalPlace constants h) ?_
      rintro ⟨p, place⟩
      exact .bind (.typedLoad fun _ named => .inr named) fun _ => .nothing
  | live name => exact steps_storageLive name
  | dead name => exact steps_storageDead name
  | setDiscriminant place d =>
      refine .bind (steps_evalPlace constants h) ?_
      rintro ⟨p, ⟨ty, align⟩⟩
      cases ty with
      | enum e =>
          refine .seq (.ofExcept (e.failsIn_variantAt d)) fun variant => ?_
          exact steps_storeTag variant.tagger fun _ named => .inr named
      | _ => exact .throw trivial
  | deinit place =>
      refine .bind (steps_evalPlace constants h) ?_
      rintro ⟨p, place⟩
      exact .deinit fun _ named => .inr named
  | validate place =>
      refine .bind (steps_evalPlace constants h) ?_
      rintro ⟨p, place⟩
      refine .bind (.typedLoad fun _ named => .inr named) fun v => ?_
      refine .bind (steps_retagValue fun _ carries => .inr carries) fun w => ?_
      exact .typedStore (fun _ named => .inl (.inl (.inr named))) fun _ carries => .inr carries
  | mention place => exact .bind (steps_evalPlace constants h) fun _ => .nothing

/-- The arguments of a call become the first locals of the callee. -/
theorem moves_passArguments : ∀ (arguments : List (ValueExpr × ArgAbi))
    (params : List (String × ArgAbi)) (callee : Frame) {hand : AllocId → Prop},
    (∀ a ∈ arguments, a.1.In L) →
    Moves strict L m₀ [callee] hand (passArguments arguments params callee) (fun f => [f]) nameless
  | (e, given) :: arguments, (name, expected) :: params, callee, hand, h => by
      rw [passArguments]
      obtain ⟨head, tail⟩ := List.forall_mem_cons.1 h
      refine .bind (steps_evalValue constants head) ?_
      rintro ⟨v, ty⟩
      refine .seq (.need trivial) fun _ => ?_
      refine .seq (.ofExcept (callee.failsIn_localTy name)) fun place => ?_
      refine .seq .getTarget fun target => .seq (.need trivial) fun _ => ?_
      refine .bind (moves_beginLocal callee name) ?_
      rintro ⟨p, callee⟩
      refine .seq (.typedStore (fun _ named => .inr named) fun _ carries => ?_) fun _ => ?_
      · exact .inl (.inr carries)
      · exact moves_passArguments arguments params callee tail
  | [], params, callee, hand, _ => by
      rw [passArguments_nil]
      exact Action.Meets.pure fun _ sound => sound.nameless
  | a :: arguments, [], callee, hand, _ => by
      rw [passArguments_of_no_params]
      exact Action.Meets.pure fun _ sound => sound.nameless

theorem steps_execCall (code : m₀.program.In L) {callee : ValueExpr}
    {arguments : List (ValueExpr × ArgAbi)} {result : PlaceExpr} {resultAbi : ArgAbi}
    {next : Option String} {convention : CallingConvention}
    (h : (Terminator.call callee arguments result resultAbi next convention).In L) :
    Steps strict L m₀ [] hand (execCall callee arguments result resultAbi next convention)
      nameless := by
  obtain ⟨hcallee, harguments, hresult⟩ := h
  refine .bind (steps_evalValue constants hcallee) ?_
  rintro ⟨v, _⟩
  refine .seq (.ask fun m => m.failsIn_calledFunction v) fun name => ?_
  refine .seq (moves_newFrame code name) fun f => .seq (.need trivial) fun _ => ?_
  refine .seq (.need trivial) fun _ => ?_
  refine .seq (.ofExcept (f.failsIn_localTy _)) fun resultPlace => ?_
  refine .bind (moves_beginLocal f _) ?_
  rintro ⟨_, f⟩
  refine .bind (steps_evalPlace constants hresult) ?_
  rintro ⟨p, place⟩
  refine .seq (.need trivial) fun _ => ?_
  refine .seq .getTarget fun target => .seq (.need trivial) fun _ => ?_
  -- The place was found in the caller, so its name is in hand while the callee is told of it.
  refine .awaiting (fun id named => .inr named) ?_
  refine .seq (moves_passArguments constants arguments _ _ harguments) fun f => ?_
  refine .seq .frame fun caller => ?_
  refine .seq (.modifyFrame (fun f => ⟨rfl, rfl, rfl⟩) fun _ => rfl) fun _ => ?_
  exact .seq (moves_push f) fun _ => .note _

/-- Every terminator keeps a machine sound. -/
theorem steps_finish (code : m₀.program.In L) {t : Terminator} (h : t.In L) :
    Steps strict L m₀ [] hand (finish t) nameless := by
  cases t with
  | goto block => exact steps_jump block
  | ite condition onTrue onFalse =>
      refine .bind (steps_evalValue constants h) ?_
      rintro ⟨v, _⟩
      cases v with
      | bool b => exact steps_jump _
      | _ => exact .throw trivial
  | switch value cases fallback =>
      refine .bind (steps_evalValue constants h) ?_
      rintro ⟨v, _⟩
      cases v with
      | int n => exact steps_jump _
      | _ => exact .throw trivial
  | unreachable => exact .throw trivial
  | call callee arguments result resultAbi next convention =>
      exact steps_execCall constants code h
  | ret => exact steps_execReturn
  | intrinsic op arguments result next => exact steps_execIntrinsic constants h

/-- Every step keeps a machine sound. -/
theorem steps_step (code : m₀.program.In L) : Steps strict L m₀ [] hand step nameless := by
  refine .seq .get fun m => .seq (.need trivial) fun _ => .bind_frame fun f hf => ?_
  refine .bind_ofExcept (failsIn_currentBlock f) fun ⟨name, block⟩ current => ?_
  have hblock := block_in hf current
  refine .seq (steps_beginStep f name) fun _ => ?_
  cases found : block.statements[f.index]? with
  | none => exact steps_finish constants code hblock.terminator
  | some s =>
      have hs := hblock.statements s (List.mem_of_getElem? found)
      refine .seq (steps_execute constants hs) fun _ => ?_
      exact .modifyFrame (fun _ => ⟨rfl, rfl, rfl⟩) fun _ => rfl

end Instructions

/-! ## The beginning -/

theorem steps_placeFunctions (names : List String) :
    Steps strict L m₀ [] hand (placeFunctions names) nameless := by
  induction names generalizing hand with
  | nil => exact .nothing
  | cons name rest ih =>
      rw [placeFunctions]
      refine .bind (steps_allocate nofun) fun p => .seq ?_ fun _ => ih
      exact .changeOther (fun _ => rfl) (fun _ => rfl) (fun _ => rfl) fun _ => rfl

/-- The beginning of an execution keeps a machine sound. -/
theorem steps_boot (code : m₀.program.In L) : Steps strict L m₀ [] hand boot nameless := by
  refine .seq .get fun m => .seq (steps_placeFunctions _) fun _ => ?_
  refine .seq (.ofExcept (failsIn_startFunction _)) fun function => ?_
  refine .seq (moves_newFrame code _) fun f => .bind (moves_beginLocal f _) fun ⟨_, f⟩ => ?_
  exact moves_push f

end Machine

end AbstractMachine
