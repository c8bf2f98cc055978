/-
# AbstractMachine.Proofs.Action — reasoning about actions, one run or two

`Meets` speaks of one run of an action: begun where a precondition holds, it ends where one
postcondition holds, or another one if it fails. `Simulates` speaks of two runs, of two actions,
begun in related states: where the first succeeds so does the second, with related answers and
states, and some of the faults of the first are faults of the second. The rest of the faults put no
obligation on the second run.

For both there is a rule for going on with another action, and one for each of the actions that
programs are made of. A proof about a program applies them along its text.
-/
import AbstractMachine.Proofs.Faults

namespace AbstractMachine

variable {α β γ δ ρ : Type}

/-! ## Two answers -/

/-- Where the first answer succeeds so does the second, with a result that is related. -/
def Improves (V : α → β → Prop) (x : Except Fault α) (y : Except Fault β) : Prop :=
  ∀ ⦃a⦄, x = .ok a → ∃ b, y = .ok b ∧ V a b

namespace Improves

variable {V V' : α → β → Prop} {W : γ → δ → Prop} {x : Except Fault α} {y : Except Fault β}

theorem mono (h : Improves V x y) (sub : ∀ a b, V a b → V' a b) : Improves V' x y := by
  intro a ha
  obtain ⟨b, hb, related⟩ := h ha
  exact ⟨b, hb, sub a b related⟩

theorem pure {a : α} {b : β} (h : V a b) : Improves V (pure a) (pure b) := by
  rintro _ ⟨⟩
  exact ⟨b, rfl, h⟩

theorem error {e : Fault} : Improves V (.error e) y := nofun

theorem refl {V : α → α → Prop} (h : ∀ a, x = .ok a → V a a) : Improves V x x :=
  fun a ha => ⟨a, ha, h a ha⟩

theorem bind {f : α → Except Fault γ} {g : β → Except Fault δ} (hx : Improves V x y)
    (hf : ∀ a b, x = .ok a → V a b → Improves W (f a) (g b)) : Improves W (x >>= f) (y >>= g) := by
  intro c hc
  obtain ⟨a, ha, hc⟩ := bind_eq_ok_iff.1 hc
  obtain ⟨b, hb, related⟩ := hx ha
  obtain ⟨d, hd, result⟩ := hf a b ha related hc
  exact ⟨d, bind_eq_ok_iff.2 ⟨b, hb, hd⟩, result⟩

/-- What both have in common is done once. -/
theorem bindSame {z : Except Fault ρ} {f : ρ → Except Fault γ} {g : ρ → Except Fault δ}
    (hf : ∀ r, z = .ok r → Improves W (f r) (g r)) : Improves W (z >>= f) (z >>= g) :=
  bind (V := fun r r' => r' = r) (refl fun _ _ => rfl) fun r _ hr same => same ▸ hf r hr

end Improves

namespace Action

variable {σ τ : Type}

/-! ## Going on -/

theorem bind_eq_ok_iff {x : Action σ α} {f : α → Action σ β} {s s' : σ} {b : β} :
    (x >>= f) s = (.ok b, s') ↔ ∃ a t, x s = (.ok a, t) ∧ f a t = (.ok b, s') := by
  rcases run : x s with ⟨e | a, t⟩
  · rw [apply_bind_of_error run]
    constructor
    · rintro ⟨⟩
    · rintro ⟨_, _, ⟨⟩, _⟩
  · rw [apply_bind_of_ok run]
    constructor
    · exact fun h => ⟨a, t, rfl, h⟩
    · rintro ⟨_, _, ⟨⟩, h⟩
      exact h

theorem bind_eq_error_iff {x : Action σ α} {f : α → Action σ β} {s s' : σ} {e : Fault} :
    (x >>= f) s = (.error e, s') ↔ x s = (.error e, s') ∨
      ∃ a t, x s = (.ok a, t) ∧ f a t = (.error e, s') := by
  rcases run : x s with ⟨e' | a, t⟩
  · rw [apply_bind_of_error run]
    constructor
    · rintro ⟨⟩
      exact .inl rfl
    · rintro (⟨⟨⟩⟩ | ⟨_, _, ⟨⟩, _⟩)
      rfl
  · rw [apply_bind_of_ok run]
    constructor
    · exact fun h => .inr ⟨a, t, rfl, h⟩
    · rintro (⟨⟨⟩⟩ | ⟨_, _, ⟨⟩, h⟩)
      exact h

theorem pure_eq_ok_iff {a b : α} {s s' : σ} :
    (pure a : Action σ α) s = (.ok b, s') ↔ a = b ∧ s' = s := by
  constructor
  · rintro ⟨⟩
    exact ⟨rfl, rfl⟩
  · rintro ⟨rfl, rfl⟩
    rfl

theorem ofExcept_eq_iff {x y : Except Fault α} {s s' : σ} :
    ofExcept x s = (y, s') ↔ x = y ∧ s' = s := by
  constructor
  · rintro ⟨⟩
    exact ⟨rfl, rfl⟩
  · rintro ⟨rfl, rfl⟩
    rfl

/-- An answer that is only renamed leaves the state alone. -/
theorem ofExcept_bind_pure (x : Except Fault α) (f : α → β) (s : σ) :
    (ofExcept x >>= fun a => (pure (f a) : Action σ β)) s = (x.map f, s) := by
  cases x with
  | error e => rfl
  | ok a => rfl

theorem need_eq_ok_iff {c : Bool} {e : Fault} {u : Unit} {s s' : σ} :
    need c e s = (.ok u, s') ↔ c = true ∧ s' = s := by
  rw [need, ofExcept_eq_iff, require_eq_ok_iff]

theorem need_eq_error {c : Bool} {e f : Fault} {s s' : σ} (h : need c e s = (.error f, s')) :
    f = e ∧ s' = s := by
  obtain ⟨failed, rfl⟩ := ofExcept_eq_iff.1 h
  cases c with
  | true => cases failed
  | false => exact ⟨(Except.error.inj failed).symm, rfl⟩

/-! ## Faults -/

/-- All that an action can fail with lies in a set of faults, wherever it is begun. -/
def Fails (E : Fault → Prop) (x : Action σ α) : Prop :=
  ∀ ⦃s s' e⦄, x s = (.error e, s') → E e

namespace Fails

variable {E : Fault → Prop}

theorem pure {a : α} : Fails E (pure a : Action σ α) :=
  fun _ _ _ run => nomatch run

theorem throw {e : Fault} (h : E e) : Fails E (throw e : Action σ α) := by
  rintro s s' _ ⟨⟩
  exact h

theorem bind {x : Action σ α} {f : α → Action σ β} (hx : Fails E x) (hf : ∀ a, Fails E (f a)) :
    Fails E (x >>= f) := by
  intro s s' e run
  obtain first | ⟨a, t, -, second⟩ := bind_eq_error_iff.1 run
  · exact hx first
  · exact hf a second

theorem ask {f : σ → Except Fault α} (h : ∀ s, FailsIn E (f s)) : Fails E (ask f) := by
  intro s s' e run
  exact h s e (Prod.mk.inj run).1

theorem ofExcept {e : Except Fault α} (h : FailsIn E e) : Fails E (ofExcept e : Action σ α) :=
  ask fun _ => h

end Fails

/-! ## One run -/

/-- Begun where `pre` holds, an action that succeeds ends where `post` holds, and one that fails
where `fails` does. -/
structure Meets (pre : σ → Prop) (x : Action σ α) (post : α → σ → Prop)
    (fails : Fault → σ → Prop) : Prop where
  ok : ∀ {s s' : σ} {a : α}, pre s → x s = (.ok a, s') → post a s'
  error : ∀ {s s' : σ} {e : Fault}, pre s → x s = (.error e, s') → fails e s'

namespace Meets

variable {pre : σ → Prop} {x : Action σ α} {mid post : α → σ → Prop} {fails : Fault → σ → Prop}
  {after : β → σ → Prop} {found : σ → σ → Prop}

theorem consequence {pre' : σ → Prop} {post' : α → σ → Prop} {fails' : Fault → σ → Prop}
    (h : Meets pre x post fails) (begins : ∀ s, pre' s → pre s)
    (ends : ∀ a s, post a s → post' a s) (breaks : ∀ e s, fails e s → fails' e s) :
    Meets pre' x post' fails' where
  ok hs run := ends _ _ (h.ok (begins _ hs) run)
  error hs run := breaks _ _ (h.error (begins _ hs) run)

theorem pure {a : α} (h : ∀ s, pre s → post a s) : Meets pre (pure a) post fails where
  ok hs run := by
    cases run
    exact h _ hs
  error _ run := nomatch run

theorem throw {e : Fault} (h : ∀ s, pre s → fails e s) : Meets pre (throw e) post fails where
  ok _ run := nomatch run
  error hs run := by
    cases run
    exact h _ hs

/-- Where the first action ends, the next one begins. -/
theorem bind {f : α → Action σ β} (hx : Meets pre x mid fails)
    (hf : ∀ a, Meets (mid a) (f a) after fails) : Meets pre (x >>= f) after fails where
  ok hs run := by
    obtain ⟨a, t, first, second⟩ := bind_eq_ok_iff.1 run
    exact (hf a).ok (hx.ok hs first) second
  error hs run := by
    obtain first | ⟨a, t, first, second⟩ := bind_eq_error_iff.1 run
    · exact hx.error hs first
    · exact (hf a).error (hx.ok hs first) second

theorem ofExcept {e : Except Fault α} (ok : ∀ a s, e = .ok a → pre s → post a s)
    (error : ∀ f s, e = .error f → pre s → fails f s) :
    Meets pre (Action.ofExcept e) post fails where
  ok hs run := by
    obtain ⟨he, rfl⟩ := Prod.mk.inj run
    exact ok _ _ he hs
  error hs run := by
    obtain ⟨he, rfl⟩ := Prod.mk.inj run
    exact error _ _ he hs

theorem get (h : ∀ s, pre s → found s s) : Meets pre get found fails where
  ok hs run := by
    cases run
    exact h _ hs
  error _ run := nomatch run

/-- What is known beforehand and does not depend on the state may be used. -/
theorem assume {P : Prop} (h : P → Meets pre x post fails) :
    Meets (fun s => pre s ∧ P) x post fails where
  ok hs run := (h hs.2).ok hs.1 run
  error hs run := (h hs.2).error hs.1 run

theorem modify {f : σ → σ} {after : PUnit → σ → Prop} (h : ∀ s, pre s → after ⟨⟩ (f s)) :
    Meets pre (modify f) after fails where
  ok hs run := by
    cases run
    exact h _ hs
  error _ run := nomatch run

end Meets

/-- An action keeps an invariant, whether it fails or not, and says something of its answer and of
its faults. -/
def Keeps (I : σ → Prop) (x : Action σ α) (V : α → Prop) (E : Fault → σ → Prop) : Prop :=
  Meets I x (fun a s => I s ∧ V a) (fun e s => I s ∧ E e s)

namespace Keeps

variable {I : σ → Prop} {x : Action σ α} {V V' : α → Prop} {W : β → Prop} {E : Fault → σ → Prop}

theorem mono (h : Keeps I x V E) (sub : ∀ a, V a → V' a) : Keeps I x V' E :=
  h.consequence (fun _ hs => hs) (fun a _ hs => ⟨hs.1, sub a hs.2⟩) fun _ _ hs => hs

theorem pure {a : α} (h : V a) : Keeps I (pure a) V E :=
  Meets.pure fun _ hs => ⟨hs, h⟩

theorem throw {e : Fault} (h : ∀ s, I s → E e s) : Keeps I (throw e : Action σ α) V E :=
  Meets.throw fun s hs => ⟨hs, h s hs⟩

/-- What is said of the answer of the first action may be used of the next one. -/
theorem bind {f : α → Action σ β} (hx : Keeps I x V E) (hf : ∀ a, V a → Keeps I (f a) W E) :
    Keeps I (x >>= f) W E where
  ok hs run := by
    obtain ⟨a, t, first, second⟩ := bind_eq_ok_iff.1 run
    have mid := hx.ok hs first
    exact (hf a mid.2).ok mid.1 second
  error hs run := by
    obtain first | ⟨a, t, first, second⟩ := bind_eq_error_iff.1 run
    · exact hx.error hs first
    · have mid := hx.ok hs first
      exact (hf a mid.2).error mid.1 second

theorem ofExcept {e : Except Fault α} (ok : ∀ a, e = .ok a → V a)
    (error : FailsIn (fun f => ∀ s, I s → E f s) e) : Keeps I (Action.ofExcept e) V E :=
  Meets.ofExcept (fun a _ he hs => ⟨hs, ok a he⟩) fun f s he hs => ⟨hs, error f he s hs⟩

theorem need {c : Bool} {e : Fault} (h : ∀ s, I s → E e s) :
    Keeps I (Action.need c e) (fun _ => c = true) E :=
  .ofExcept (fun _ he => require_eq_ok_iff.1 he) (FailsIn.require h)

/-- A question about the state is answered in a state that satisfies the invariant. -/
theorem get : Keeps I (get : Action σ σ) I E :=
  Meets.get fun _ hs => ⟨hs, hs⟩

theorem ask {f : σ → Except Fault α} (ok : ∀ s a, I s → f s = .ok a → V a)
    (error : ∀ s, I s → FailsIn (fun e => E e s) (f s)) : Keeps I (Action.ask f) V E where
  ok hs run := by
    obtain ⟨he, rfl⟩ := Prod.mk.inj run
    exact ⟨hs, ok _ _ hs he⟩
  error hs run := by
    obtain ⟨he, rfl⟩ := Prod.mk.inj run
    exact ⟨hs, error _ hs _ he⟩

end Keeps

/-! ## Two runs -/

/-- From related states, what the first action does the second one does as well: it succeeds, with
an answer that is related, or fails in the same way if the fault is one of `A`; and the states are
related afterwards. Other faults of the first one allow the second to do anything. -/
structure Simulates (R : σ → τ → Prop) (A : Fault → Prop) (V : α → β → Prop) (x : Action σ α)
    (y : Action τ β) : Prop where
  ok : ∀ {s s' : σ} {t : τ} {a : α}, R s t → x s = (.ok a, s') →
    ∃ b t', y t = (.ok b, t') ∧ V a b ∧ R s' t'
  error : ∀ {s s' : σ} {t : τ} {e : Fault}, R s t → x s = (.error e, s') → A e →
    ∃ t', y t = (.error e, t') ∧ R s' t'

namespace Simulates

variable {R : σ → τ → Prop} {A : Fault → Prop} {V V' : α → β → Prop} {W : γ → δ → Prop}
  {x : Action σ α} {y : Action τ β}

theorem mono (h : Simulates R A V x y) (sub : ∀ a b, V a b → V' a b) : Simulates R A V' x y where
  ok related run := by
    obtain ⟨b, t', run', answer, related⟩ := h.ok related run
    exact ⟨b, t', run', sub _ _ answer, related⟩
  error := h.error

theorem pure {a : α} {b : β} (h : V a b) : Simulates R A V (pure a) (pure b) where
  ok related run := by
    obtain ⟨rfl, rfl⟩ := pure_eq_ok_iff.1 run
    exact ⟨b, _, rfl, h, related⟩
  error _ run := nomatch run

theorem throw {e : Fault} : Simulates R A V (throw e) (throw e) where
  ok _ run := nomatch run
  error related run _ := by
    cases run
    exact ⟨_, rfl, related⟩

/-- A fault that does not matter. -/
theorem throw_left {e : Fault} (h : ¬A e) : Simulates R A V (MonadExcept.throw e) y where
  ok _ run := nomatch run
  error _ run all := by
    cases run
    exact absurd all h

/-- An action whose faults do not matter only has to be followed where it succeeds. -/
theorem of_fails (h : Fails (fun e => ¬A e) x)
    (ok : ∀ {s s' : σ} {t : τ} {a : α}, R s t → x s = (.ok a, s') →
      ∃ b t', y t = (.ok b, t') ∧ V a b ∧ R s' t') : Simulates R A V x y where
  ok := ok
  error _ run matters := absurd matters (h run)

theorem bind {f : α → Action σ γ} {g : β → Action τ δ} (hx : Simulates R A V x y)
    (hf : ∀ a b, V a b → Simulates R A W (f a) (g b)) : Simulates R A W (x >>= f) (y >>= g) where
  ok related run := by
    obtain ⟨a, s, first, second⟩ := bind_eq_ok_iff.1 run
    obtain ⟨b, t, first', answer, related⟩ := hx.ok related first
    obtain ⟨c, t', second', result⟩ := (hf a b answer).ok related second
    exact ⟨c, t', bind_eq_ok_iff.2 ⟨b, t, first', second'⟩, result⟩
  error related run matters := by
    obtain first | ⟨a, s, first, second⟩ := bind_eq_error_iff.1 run
    · obtain ⟨t', first', related⟩ := hx.error related first matters
      exact ⟨t', bind_eq_error_iff.2 (.inl first'), related⟩
    · obtain ⟨b, t, first', answer, related⟩ := hx.ok related first
      obtain ⟨t', second', related⟩ := (hf a b answer).error related second matters
      exact ⟨t', bind_eq_error_iff.2 (.inr ⟨b, t, first', second'⟩), related⟩

/-- Answers that are the same in both runs. -/
theorem bindSame {y : Action τ α} {f : α → Action σ γ} {g : α → Action τ δ}
    (hx : Simulates R A (fun a b => b = a) x y) (hf : ∀ a, Simulates R A W (f a) (g a)) :
    Simulates R A W (x >>= f) (y >>= g) :=
  hx.bind fun a _ same => same ▸ hf a

theorem ofExcept {e : Except Fault α} {d : Except Fault β} (fails : FailsIn (fun f => ¬A f) e)
    (h : Improves V e d) : Simulates R A V (ofExcept e) (ofExcept d) :=
  of_fails (.ofExcept fails) fun related run => by
    obtain ⟨he, rfl⟩ := ofExcept_eq_iff.1 run
    obtain ⟨b, hb, answer⟩ := h he
    exact ⟨b, _, ofExcept_eq_iff.2 ⟨hb, rfl⟩, answer, related⟩

theorem need {c : Bool} {e : Fault} (h : ¬A e) :
    Simulates R A (fun _ _ => c = true) (need c e) (need c e) :=
  ofExcept (.require h) (.refl fun _ hc => require_eq_ok_iff.1 hc)

theorem get : Simulates R A R (get : Action σ σ) (get : Action τ τ) where
  ok related run := by
    cases run
    exact ⟨_, _, rfl, related, related⟩
  error _ run := nomatch run

theorem modify {f : σ → σ} {g : τ → τ} (h : ∀ s t, R s t → R (f s) (g t)) :
    Simulates R A (fun _ _ => True) (modify f : Action σ PUnit) (modify g : Action τ PUnit) where
  ok related run := by
    cases run
    exact ⟨_, _, rfl, trivial, h _ _ related⟩
  error _ run := nomatch run

end Simulates

end Action

end AbstractMachine
