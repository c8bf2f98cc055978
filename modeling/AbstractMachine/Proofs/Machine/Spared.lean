/-
# AbstractMachine.Proofs.Machine.Spared — memory that evaluating cannot reach

Evaluating an expression changes memory only where a value is moved out of a place, and finds a place
only through a name that the machine held. So memory whose name is not held stays as it is: an action
`Spares` what has no name in a set, if all that the machine holds does.

Most of what evaluating does is to look (`Looks`). That a place is found through a name of the set is
known already, and so the induction over expressions has one case with something to show: the load
that moves.
-/
import AbstractMachine.Proofs.Machine.Evaluation
import AbstractMachine.Proofs.Memory.Contents

namespace AbstractMachine

namespace Machine

variable {W : AllocId → Prop} {m m' : Machine} {α β : Type} {p : Pointer} {v l r : Value}
  {ty lt rt : Ty}

/-! ## Looking -/

/-- An action that succeeds leaves memory as it was. -/
def Looks (x : Action Machine α) : Prop :=
  ∀ ⦃m a m'⦄, x m = (.ok a, m') → m'.store.memory = m.store.memory

namespace Looks

variable {x : Action Machine α} {f : α → Action Machine β}

theorem pure {a : α} : Looks (Pure.pure a : Action Machine α) := by
  intro m b m' run
  obtain ⟨-, rfl⟩ := Action.pure_eq_ok_iff.1 run
  rfl

theorem throw {e : Fault} : Looks (MonadExcept.throw e : Action Machine α) := nofun

theorem bind (hx : Looks x) (hf : ∀ a, Looks (f a)) : Looks (x >>= f) := by
  intro m b m' run
  obtain ⟨a, n, first, second⟩ := Action.bind_eq_ok_iff.1 run
  exact (hf a second).trans (hx first)

/-- A question about the machine. -/
theorem ask {g : Machine → Except Fault α} : Looks (Action.ask g) := by
  intro m a m' run
  obtain ⟨-, rfl⟩ := Prod.mk.inj run
  rfl

theorem ofExcept {e : Except Fault α} : Looks (Action.ofExcept e : Action Machine α) :=
  ask

theorem need {c : Bool} {e : Fault} : Looks (Action.need c e : Action Machine Unit) :=
  ask

theorem withTarget {f : Target → Action Machine β} (hf : ∀ target, Looks (f target)) :
    Looks (getTarget >>= f) := by
  intro m b m' run
  rw [getTarget_bind] at run
  exact hf _ run

theorem expose : Looks (onStore (Store.expose p)) := by
  intro m a m' run
  obtain ⟨journal, exposed⟩ := onStore_expose p m
  obtain ⟨-, rfl⟩ := Prod.mk.inj (exposed.symm.trans run)
  rfl

theorem fromAddr {addr : Int} : Looks (Machine.fromAddr addr) := by
  intro m q m' run
  obtain ⟨-, journal, rfl⟩ := fromAddr_eq_ok run
  rfl

end Looks

/-- An operator on one value looks at most. -/
theorem looks_evalUnary (op : UnaryOp) : Looks (evalUnary op v ty) := by
  cases op with
  | neg | bitNot | cast t => exact .bind .ofExcept fun _ => .bind .ofExcept fun _ => .pure
  | not => exact .bind .ofExcept fun _ => .pure
  | transmute t => exact .withTarget fun _ => .bind .ofExcept fun _ => .pure
  | expose =>
      cases v with
      | ptr p => exact .bind .expose fun _ => .withTarget fun _ => .pure
      | _ => exact .throw
  | fromAddr t =>
      refine .bind .ofExcept fun _ => .withTarget fun _ => .bind .ofExcept fun _ => ?_
      exact .bind .need fun _ => .bind .fromAddr fun _ => .bind .ofExcept fun _ =>
        .bind .need fun _ => .pure

/-- An operator on two values looks at most. -/
theorem looks_evalBinary (op : BinaryOp) : Looks (evalBinary op l lt r rt) := by
  cases op with
  | int op => exact .bind .ofExcept fun _ => .bind .ofExcept fun _ => .bind .ofExcept fun _ => .pure
  | rel op => exact .ofExcept
  | bool op => exact .bind .ofExcept fun _ => .bind .ofExcept fun _ => .pure
  | offset inbounds =>
      cases l with
      | ptr p =>
          refine .bind .ofExcept fun _ => ?_
          cases inbounds with
          | true => exact .bind .ask fun _ => .pure
          | false => exact .withTarget fun _ => .bind .ofExcept fun _ => .pure
      | _ => exact .throw

/-! ## Sparing -/

/-- In a machine that holds no names but those of a set, an action that succeeds leaves alone all
allocations that are not in it. -/
def Spares (W : AllocId → Prop) (x : Action Machine α) : Prop :=
  ∀ ⦃m a m'⦄, m.store.memory.Numbered → (∀ id, m.Holds id → W id) → x m = (.ok a, m') →
    ∀ k : Nat, ¬W ⟨k⟩ → m'.store.memory.allocations[k]? = m.store.memory.allocations[k]?

namespace Spares

variable {x : Action Machine α} {f : α → Action Machine β} {V : α → Prop}

theorem of_looks (h : Looks x) : Spares W x := by
  intro m a m' _ _ run k _
  rw [h run]

/-- The second action begins where the first one has evaluated. -/
theorem bind
    (evaluates : ∀ m : Machine, m.store.memory.Numbered → (∀ id, m.Holds id → W id) →
      Evaluates W m x V)
    (hx : Spares W x) (hf : ∀ a, V a → Spares W (f a)) : Spares W (x >>= f) := by
  intro m b m' numbered within run k other
  obtain ⟨a, n, first, second⟩ := Action.bind_eq_ok_iff.1 run
  obtain ⟨evolved, answer⟩ := (evaluates m numbered within).ok (.refl within) first
  rw [hf a answer (evolved.numbered numbered) evolved.within second k other]
  exact hx numbered within first k other

/-- Before an action that looks at most. -/
theorem bindLooks (hx : Spares W x) (hf : ∀ a, Looks (f a)) : Spares W (x >>= f) := by
  intro m b m' numbered within run k other
  obtain ⟨a, n, first, second⟩ := Action.bind_eq_ok_iff.1 run
  rw [hf a second]
  exact hx numbered within first k other

theorem bindExcept {e : Except Fault α} (hf : ∀ a, Spares W (f a)) :
    Spares W (Action.ofExcept e >>= f) := by
  intro m b m' numbered within run
  obtain ⟨a, n, first, second⟩ := Action.bind_eq_ok_iff.1 run
  obtain ⟨-, rfl⟩ := Action.ofExcept_eq_iff.1 first
  exact hf a numbered within second

/-- A place that is emptied has a name in the set. -/
theorem deinit {place : PlaceTy} (named : ∀ id, p.provenance = some id → W id) :
    Spares W (onStore (Store.deinit p place)) := by
  intro m u m' numbered _ run k other
  obtain ⟨mem, emptied, rfl⟩ := onStore_change_eq_ok_iff.1 run
  have written := Memory.overwritten_of_store numbered emptied
  exact written.others k fun same => other (named _ same)

end Spares

/-! ## Expressions -/

section Expressions

variable {L : Fragment} (constants : ∀ v ty, L.value (.constant v ty) → Named W (v, ty))

include constants

mutual

/-- Evaluating a value expression leaves alone all memory that no held name is of. -/
theorem spares_evalValue : ∀ e : ValueExpr, e.In L → Spares W (evalValue e)
  | .constant v ty, _ => by
      rw [evalValue]
      exact .of_looks .pure
  | .function name, _ => by
      rw [evalValue]
      refine .of_looks ?_
      intro m a m' run
      obtain ⟨_, _, got, run⟩ := Action.bind_eq_ok_iff.1 run
      cases got
      cases found : m.functions.find? name with
      | none =>
          rw [found] at run
          cases run
      | some addr =>
          rw [found] at run
          exact Looks.pure run
  | .tuple parts ty, h => by
      rw [evalValue]
      exact .bindExcept fun _ => (spares_evalAll parts h.2).bindLooks fun _ => .pure
  | .union field operand ty, h => by
      rw [evalValue]
      refine (spares_evalValue operand h.2).bindLooks ?_
      exact fun _ => .withTarget fun _ => .bind .ofExcept fun _ => .pure
  | .variant d payload ty, h => by
      rw [evalValue]
      refine (spares_evalValue payload h.2).bindLooks ?_
      exact fun _ => .bind .ofExcept fun _ => .pure
  | .discriminant place, h => by
      rw [evalValue]
      refine (spares_evalPlace place h.2).bindLooks ?_
      rintro ⟨p, ⟨ty, align⟩⟩
      cases ty with
      | enum e =>
          refine .bind .ask fun data => .withTarget fun target => ?_
          cases e.discriminator.decode target data with
          | none => exact .throw
          | some d => exact .pure
      | _ => exact .throw
  | .load place destructive, h => by
      rw [evalValue]
      refine .bind (fun m numbered within => evaluates_evalPlace numbered within constants place h.2)
        (spares_evalPlace place h.2) ?_
      intro ⟨p, place⟩ named
      refine .bind (fun m numbered within => evaluates_typedLoad named) (.of_looks .ask) ?_
      intro v _
      cases destructive with
      | false => exact .of_looks .pure
      | true => exact (Spares.deinit named).bindLooks fun _ => .pure
  | .addrOf place ty, h => by
      rw [evalValue]
      exact (spares_evalPlace place h.2).bindLooks fun _ => .pure
  | .createRef place ty, h => by
      rw [evalValue]
      refine (spares_evalPlace place h.2).bindLooks ?_
      exact fun _ => .withTarget fun _ => .bind .ofExcept fun _ => .bind .need fun _ => .pure
  | .unary op operand, h => by
      rw [evalValue]
      exact (spares_evalValue operand h.2).bindLooks fun _ => looks_evalUnary op
  | .binary op left right, h => by
      rw [evalValue]
      refine .bind (fun m numbered within => evaluates_evalValue numbered within constants left h.2.1)
        (spares_evalValue left h.2.1) fun _ _ => ?_
      exact (spares_evalValue right h.2.2).bindLooks fun _ => looks_evalBinary op

/-- So does finding a place. -/
theorem spares_evalPlace : ∀ p : PlaceExpr, p.In L → Spares W (evalPlace p)
  | .var name, _ => by
      rw [evalPlace]
      refine .of_looks ?_
      intro m a m' run
      obtain ⟨f, n, framed, run⟩ := Action.bind_eq_ok_iff.1 run
      obtain ⟨rfl, -⟩ := frame_eq_ok_iff.1 framed
      cases found : f.locals.find? name with
      | none =>
          rw [found] at run
          cases run
      | some p =>
          rw [found] at run
          exact Looks.bind .ofExcept (fun _ => .pure) run
  | .deref operand place, h => by
      rw [evalPlace]
      refine (spares_evalValue operand h).bindLooks ?_
      rintro ⟨v, _⟩
      cases v with
      | ptr p => exact .pure
      | _ => exact .throw
  | .field root i, h => by
      rw [evalPlace]
      refine (spares_evalPlace root h).bindLooks ?_
      exact fun _ => .bind .ofExcept fun _ => .bind .ask fun _ => .pure
  | .index root i, h => by
      rw [evalPlace]
      refine .bind (fun m numbered within => evaluates_evalPlace numbered within constants root h.1)
        (spares_evalPlace root h.1) fun _ _ => ?_
      refine (spares_evalValue i h.2).bindLooks fun _ => .withTarget fun _ => ?_
      exact .bind .ofExcept fun _ => .bind .ask fun _ => .pure
  | .downcast root d, h => by
      rw [evalPlace]
      refine (spares_evalPlace root h).bindLooks ?_
      rintro ⟨p, ⟨ty, align⟩⟩
      cases ty with
      | enum e => exact .bind .ofExcept fun _ => .pure
      | _ => exact .throw

theorem spares_evalAll : ∀ es : List ValueExpr, ValueExpr.allIn L es → Spares W (evalAll es)
  | [], _ => by
      rw [evalAll]
      exact .of_looks .pure
  | e :: es, h => by
      rw [evalAll]
      refine .bind (fun m numbered within => evaluates_evalValue numbered within constants e h.1)
        (spares_evalValue e h.1) fun _ _ => ?_
      exact (spares_evalAll es h.2).bindLooks fun _ => .pure

end

end Expressions

end Machine

end AbstractMachine
