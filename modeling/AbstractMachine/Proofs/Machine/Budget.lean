/-
# AbstractMachine.Proofs.Machine.Budget — a step budget only cuts runs short

The budget is looked at before a step and steps are counted inside of it, so a run within a budget is
the beginning of every run within a larger one. Either it takes as many steps as there are in the
budget, or it comes to an end before that, and then no larger budget is noticed (`runFor_cases`).
What a machine has printed it has printed, so a run that was cut short has printed a beginning of
what the longer run prints.

The step limit is a fault like any other, and a chooser or a predictor may answer with it as with any
other. Such a run was cut short by somebody else, and not after as many steps as there were in the
budget. If the two are `Punctual` this does not happen.
-/
import AbstractMachine.Proofs.Machine.Lasting
import AbstractMachine.Proofs.Machine.Stack
import AbstractMachine.Proofs.Memory.Placement
import AbstractMachine.Proofs.Noninterference.Reports

namespace AbstractMachine

/-! ## Choosers and predictors that leave the limit alone -/

/-- A chooser never says that the step limit was reached. -/
def Chooser.Punctual (c : Chooser) : Prop :=
  ∀ asked q k, c asked q ≠ .error (.stepLimit k)

/-- A predictor never says that the step limit was reached, unless a test tells it so. -/
def Predictor.Punctual (p : Predictor) : Prop :=
  ∀ asked q k, p asked q = .error (.stepLimit k) →
    ∃ id, q.fits id = .error (.stepLimit k) ∨ ∃ test ∈ q.contains, test id = .error (.stepLimit k)

theorem exists_of_firstOk_eq_error {α : Type} {test : α → Except Fault Bool} {xs : List α}
    {f : Fault} (h : firstOk test xs = .error f) : ∃ x, test x = .error f := by
  induction xs with
  | nil => cases h
  | cons x xs ih =>
      rw [firstOk] at h
      rcases tested : test x with e | _ | _
      · rw [tested] at h
        obtain rfl := Except.error.inj h
        exact ⟨x, tested⟩
      · rw [tested] at h
        exact ih h
      · rw [tested] at h
        cases h

theorem Predictor.standard_punctual : Predictor.standard.Punctual := by
  intro asked q k failed
  cases preferred : q.contains.elim (.ok none) (firstOk · (AllocId.sorted q.exposed)) with
  | error e =>
      have same : e = .stepLimit k := by
        simp only [Predictor.standard, preferred] at failed
        exact Except.error.inj failed
      subst same
      cases tests : q.contains with
      | none =>
          rw [tests] at preferred
          cases preferred
      | some test =>
          rw [tests] at preferred
          obtain ⟨id, failed⟩ := exists_of_firstOk_eq_error preferred
          exact ⟨id, .inr ⟨test, rfl, failed⟩⟩
  | ok found =>
      simp only [Predictor.standard, preferred, bind, Except.bind] at failed
      cases found with
      | some id => cases failed
      | none =>
          obtain ⟨id, failed⟩ := exists_of_firstOk_eq_error failed
          exact ⟨id, .inl failed⟩

theorem Solver.chooser_punctual (s : Solver) : s.chooser.Punctual := by
  intro asked q k failed
  obtain undrawn | ⟨-, ⟨⟩⟩ := Solver.pick_eq_error_iff.1 failed
  cases Solver.solve_eq_error undrawn

namespace Machine

variable {program : Program} {target : Target} {chooser : Chooser} {predictor : Predictor}
  {m m' m₁ : Machine} {f : Fault} {n k : Nat}

/-! ## Runs -/

/-- So many steps lead from one machine to another. -/
inductive Takes : Nat → Machine → Machine → Prop
  | none {m : Machine} : Takes 0 m m
  | cons {n : Nat} {m m₁ m' : Machine} (first : step m = (.ok (), m₁)) (rest : Takes n m₁ m') :
      Takes (n + 1) m m'

/-- The steps that were taken are no longer in the budget. -/
theorem Takes.runFor (h : Takes k m m') (n : Nat) : runFor (k + n) m = runFor n m' := by
  induction h with
  | none => rw [Nat.zero_add]
  | cons first rest ih => rw [Nat.succ_add, runFor_of_step_ok first, ih]

theorem Takes.tail (h : Takes k m m₁) (last : step m₁ = (.ok (), m')) :
    Takes (k + 1) m m' := by
  induction h with
  | none => exact .cons last .none
  | cons first rest ih => exact .cons first (ih last)

/-- A run takes as many steps as there are in the budget, or ends in a step before that. -/
theorem runFor_cases (n : Nat) (m : Machine) :
    (∃ m', Takes n m m' ∧ runFor n m = (.stepLimit m'.steps, m')) ∨
      ∃ k < n, ∃ m₁ f m', Takes k m m₁ ∧ step m₁ = (.error f, m') ∧
        ∀ n', k < n' → runFor n' m = (f, m') := by
  induction n generalizing m with
  | zero => exact .inl ⟨m, .none, rfl⟩
  | succ n ih =>
      rcases first : step m with ⟨f | u, m₁⟩
      · refine .inr ⟨0, Nat.succ_pos n, m, f, m₁, .none, first, fun n' positive => ?_⟩
        obtain ⟨n, rfl⟩ := Nat.exists_eq_succ_of_ne_zero (Nat.ne_of_gt positive)
        exact runFor_of_step_error first
      · obtain ⟨m', rest, cut⟩ | ⟨k, less, m₂, f, m', rest, last, ends⟩ := ih m₁
        · exact .inl ⟨m', .cons first rest, (runFor_of_step_ok first).trans cut⟩
        · refine .inr ⟨k + 1, Nat.succ_lt_succ less, m₂, f, m', .cons first rest, last, ?_⟩
          intro n' more
          obtain ⟨n, rfl⟩ := Nat.exists_eq_succ_of_ne_zero (Nat.ne_of_gt (Nat.zero_lt_of_lt more))
          exact (runFor_of_step_ok first).trans (ends n (Nat.lt_of_succ_lt_succ more))

theorem Reachable.takes (h : Reachable program target chooser predictor m) (taken : Takes k m m') :
    Reachable program target chooser predictor m' := by
  induction taken with
  | none => exact h
  | cons first _ ih => exact ih (h.tail first)

/-- Steps that are taken are counted, and take nothing back. -/
theorem Takes.later (h : Takes k m m') (laid : m.store.memory.Laid) :
    Later { m with steps := m.steps + k } m' := by
  induction h with
  | none => exact ⟨laid, List.prefix_rfl, List.prefix_rfl, rfl, rfl, rfl⟩
  | @cons n m m₁ m' first rest ih =>
      obtain ⟨f, name, block, executes⟩ := exists_executes first
      have once := later_of_executes laid executes first
      have more := ih once.laid
      exact {
        laid := more.laid
        stdout := once.stdout.trans more.stdout
        stderr := once.stderr.trans more.stderr
        steps := by
          have counted := once.steps
          have counted' := more.steps
          simp only at counted counted' ⊢
          omega
        chooser := more.chooser.trans once.chooser
        predictor := more.predictor.trans once.predictor }

/-- A step that fails takes nothing back, and was counted unless the program is to blame. -/
theorem step_eq_error (laid : m.store.memory.Laid) (failed : step m = (.error f, m')) :
    Later m m' ∧ (∃ d, f = .defect d) ∨ Later { m with steps := m.steps + 1 } m' := by
  by_cases h : ∃ f name block, m.Executes f name block
  · obtain ⟨f, name, block, executes⟩ := h
    exact .inr (later_of_executes laid executes failed)
  · obtain ⟨d, stuck⟩ := step_eq_defect_of_not_executes fun f name block executes =>
      h ⟨f, name, block, executes⟩
    obtain ⟨same, rfl⟩ := Prod.mk.inj (failed.symm.trans stuck)
    exact .inl ⟨⟨laid, List.prefix_rfl, List.prefix_rfl, rfl, rfl, rfl⟩, d, Except.error.inj same⟩

/-- What is left by a run has the output of what it began with. -/
theorem prefix_of_runFor (laid : m.store.memory.Laid) (run : runFor n m = (f, m')) :
    m.stdout <+: m'.stdout ∧ m.stderr <+: m'.stderr := by
  obtain ⟨_, taken, cut⟩ | ⟨k, less, m₁, _, _, taken, last, ends⟩ := runFor_cases n m
  · obtain ⟨-, rfl⟩ := Prod.mk.inj (run.symm.trans cut)
    have later := taken.later laid
    exact ⟨later.stdout, later.stderr⟩
  · obtain ⟨rfl, rfl⟩ := Prod.mk.inj (run.symm.trans (ends n less))
    have later := taken.later laid
    obtain ⟨last, -⟩ | last := step_eq_error later.laid last
    · exact ⟨later.stdout.trans last.stdout, later.stderr.trans last.stderr⟩
    · exact ⟨later.stdout.trans last.stdout, later.stderr.trans last.stderr⟩

/-! ## Who speaks of the step limit -/

/-- Nothing that a machine does by itself ends in the step limit. -/
theorem Cause.ne_stepLimit {W : AllocId → Prop} (cause : m.Cause W f)
    (chooser : m.store.memory.chooser.Punctual) (predictor : m.store.casts.predictor.Punctual)
    (k : Int) : f ≠ .stepLimit k := by
  rintro rfl
  have covers {id : AllocId} {addr : Int} {onePastEnd : Bool} :
      m.store.memory.covers id addr onePastEnd ≠ .error (.stepLimit k) := by
    have fails : FailsIn (· ≠ .stepLimit k) (m.store.memory.covers id addr onePastEnd) := by
      refine .bind (fun f missing => ?_) fun _ _ => .pure _
      rw [Memory.eq_of_allocation_eq_error missing]
      nofun
    exact fun failed => fails _ failed rfl
  cases cause with
  | refused h =>
      obtain ordinary | ⟨id, -, missing⟩ := h
      · exact ordinary
      · cases Memory.eq_of_allocation_eq_error missing
  | chooser last answer => exact chooser _ _ _ answer
  | predictor last answer =>
      obtain ⟨id, failed | ⟨_, ⟨⟩, failed⟩⟩ := predictor _ _ _ answer
      · exact covers failed
      · exact covers failed
  | ends h => exact h

theorem Reachable.chooser_eq (h : Reachable program target chooser predictor m) :
    m.store.memory.chooser = chooser := by
  obtain ⟨m₀, begun, steps⟩ := h
  induction steps with
  | refl => exact (later_of_boot (.fresh target chooser) begun).chooser
  | @tail m m' before run ih =>
      have reached : Reachable program target chooser predictor m := ⟨m₀, begun, before⟩
      obtain ⟨f, name, block, executes⟩ := exists_executes run
      exact (later_of_executes reached.laid executes run).chooser.trans ih

variable (punctual : chooser.Punctual) (punctual' : predictor.Punctual)

include punctual punctual'

theorem Reachable.ne_stepLimit_of_step (h : Reachable program target chooser predictor m)
    (failed : step m = (.error f, m')) (k : Int) : f ≠ .stepLimit k := by
  have constants : ∀ v ty, Fragment.full.value (.constant v ty) → False → ∀ id, ¬v.Carries id :=
    fun _ _ _ => False.elim
  obtain ⟨code, sound⟩ := h.sound program.in_full constants
  have failure := (steps_step constants code).error sound failed
  have same : m'.store.memory.chooser = m.store.memory.chooser ∧
      m'.store.casts.predictor = m.store.casts.predictor := by
    obtain ⟨later, -⟩ | later := step_eq_error h.laid failed
    · exact ⟨later.chooser, later.predictor⟩
    · exact ⟨later.chooser, later.predictor⟩
  refine failure.cause.ne_stepLimit ?_ ?_ k
  · exact same.1.trans h.chooser_eq ▸ punctual
  · exact same.2.trans h.predictor_eq ▸ punctual'

theorem ne_stepLimit_of_boot
    (failed : boot (fresh program target chooser predictor) = (.error f, m)) (k : Int) :
    f ≠ .stepLimit k := by
  have failure : Failed False (fresh program target chooser predictor) f m :=
    (steps_boot program.in_full).error sound_fresh failed
  have later := later_of_boot (.fresh target chooser) failed
  refine failure.cause.ne_stepLimit ?_ ?_ k
  · exact later.chooser ▸ punctual
  · exact later.predictor ▸ punctual'

omit punctual punctual'

/-! ## Two budgets -/

variable {limit limit' : Int} {o : Machine}

/-- What is left of a machine that was run is what its run leaves, but for the journal and for the
note that it is over. -/
theorem run_of_runFor (h : runFor (limit - m.steps).toNat m = (f, m')) :
    (∀ e, e ≠ .terminated → ((run limit m).1 = .error e ↔ f = e)) ∧
      (run limit m).2.stdout = m'.stdout ∧ (run limit m).2.stderr = m'.stderr ∧
      (run limit m).2.steps = m'.steps := by
  by_cases ended : f = .terminated
  · subst ended
    rw [run_of_terminated h]
    exact ⟨fun e other => by simp [other.symm], rfl, rfl, rfl⟩
  · rw [run_of_fault ended h]
    exact ⟨fun e _ => by simp, rfl, rfl, rfl⟩

/-- A run that is not cut short does not notice a larger budget. -/
theorem conclude_eq_of_ne_stepLimit (le : limit ≤ limit')
    (ends : ∀ k, (o.conclude limit).result ≠ .error (.stepLimit k)) :
    o.conclude limit' = o.conclude limit := by
  rcases begun : boot o with ⟨e | ⟨⟩, m⟩
  · rw [conclude, conclude, begun]
  rw [conclude_of_boot begun] at ends
  rw [conclude_of_boot begun, conclude_of_boot begun]
  have same : run limit' m = run limit m := by
    obtain ⟨m', -, cut⟩ | ⟨k, less, _, f, m', -, -, done⟩ :=
      runFor_cases (limit - m.steps).toNat m
    · exact absurd (((run_of_runFor cut).1 (.stepLimit m'.steps) (by simp)).2 rfl) (ends m'.steps)
    · rw [run, run, done _ less, done _ (by omega)]
  rw [same]

/-- The output within a budget is the beginning of that within a larger one. -/
theorem output_prefix (laid : o.store.memory.Laid) (le : limit ≤ limit') :
    (o.conclude limit).machine.elim [] (·.stdout) <+:
        (o.conclude limit').machine.elim [] (·.stdout) ∧
      (o.conclude limit).machine.elim [] (·.stderr) <+:
        (o.conclude limit').machine.elim [] (·.stderr) := by
  rcases begun : boot o with ⟨e | ⟨⟩, m⟩
  · rw [conclude, conclude, begun]
    exact ⟨List.prefix_rfl, List.prefix_rfl⟩
  have laid := (later_of_boot laid begun).laid
  rw [conclude_of_boot begun, conclude_of_boot begun]
  obtain ⟨m', taken, cut⟩ | ⟨k, less, _, f, m', -, -, done⟩ :=
    runFor_cases (limit - m.steps).toNat m
  · -- The longer run goes on where the shorter one was cut off.
    obtain ⟨j, more⟩ : ∃ j, (limit' - m.steps).toNat = (limit - m.steps).toNat + j :=
      Nat.exists_eq_add_of_le (by omega)
    rcases rest : runFor j m' with ⟨f, m''⟩
    have longer : runFor (limit' - m.steps).toNat m = (f, m'') := by
      rw [more, taken.runFor, rest]
    obtain ⟨-, stdout, stderr, -⟩ := run_of_runFor cut
    obtain ⟨-, stdout', stderr', -⟩ := run_of_runFor longer
    simp only [Option.elim_some, stdout, stderr, stdout', stderr']
    exact prefix_of_runFor (taken.later laid).laid rest
  · have same : run limit' m = run limit m := by
      rw [run, run, done _ less, done _ (by omega)]
    rw [same]
    exact ⟨List.prefix_rfl, List.prefix_rfl⟩

/-- A run that took no more steps than a smaller budget has ends within that as well. -/
theorem conclude_eq_of_steps_le (laid : o.store.memory.Laid)
    (ends : ∀ k, (o.conclude limit').result ≠ .error (.stepLimit k))
    (defect : ∀ d, (o.conclude limit').result ≠ .error (.defect d))
    (steps : (o.conclude limit').machine.elim (0 : Int) (·.steps) ≤ limit) :
    o.conclude limit = o.conclude limit' := by
  rcases begun : boot o with ⟨e | ⟨⟩, m⟩
  · rw [conclude, conclude, begun]
  have laid := (later_of_boot laid begun).laid
  rw [conclude_of_boot begun] at ends defect steps
  rw [conclude_of_boot begun, conclude_of_boot begun]
  obtain ⟨m', -, cut⟩ | ⟨k, less, m₁, f, m', taken, last, done⟩ :=
    runFor_cases (limit' - m.steps).toNat m
  · exact absurd (((run_of_runFor cut).1 (.stepLimit m'.steps) (by simp)).2 rfl) (ends m'.steps)
  have later := taken.later laid
  obtain ⟨result, -, -, counted⟩ := run_of_runFor (done _ less)
  obtain ⟨-, d, rfl⟩ | once := step_eq_error later.laid last
  · exact absurd ((result (.defect d) (by simp)).2 rfl) (defect d)
  have steps : (m.steps + k + 1 : Int) ≤ limit := by
    have counted' := later.steps
    have counted'' := once.steps
    simp only [Option.elim_some] at steps counted' counted''
    omega
  have same : run limit m = run limit' m := by
    rw [run, run, done _ less, done _ (by omega)]
  rw [same]

/-- How many steps a machine needs to come to an end of its own: as many as it takes and the one that
fails, whether that one comes to be counted or not. -/
inductive Needs (o : Machine) : Nat → Prop
  | boot {f : Fault} {m : Machine} (failed : boot o = (.error f, m)) (own : ∀ k, f ≠ .stepLimit k) :
      Needs o 0
  | step {n : Nat} {m m₁ m' : Machine} {f : Fault} (begun : Machine.boot o = (.ok (), m))
      (taken : Takes n m m₁) (last : Machine.step m₁ = (.error f, m'))
      (own : ∀ k, f ≠ .stepLimit k) : Needs o (n + 1)

/-- A run that has as many steps as it needs is not cut short. -/
theorem Needs.ne_stepLimit (needs : (fresh program target chooser predictor).Needs n)
    (le : n ≤ limit) (k : Int) :
    ((fresh program target chooser predictor).conclude limit).result ≠ .error (.stepLimit k) := by
  cases needs with
  | boot failed own =>
      rw [conclude, failed]
      exact fun cut => own k (Except.error.inj cut)
  | @step j m m₁ m' f begun taken last own =>
      have zero : m.steps = 0 := (later_of_boot (.fresh target chooser) begun).steps
      obtain ⟨i, more⟩ : ∃ i, (limit - m.steps).toNat = j + (i + 1) :=
        ⟨(limit - m.steps).toNat - (j + 1), by omega⟩
      have ended : runFor (limit - m.steps).toNat m = (f, m') := by
        rw [more, taken.runFor, runFor_of_step_error last]
      rw [conclude_of_boot begun]
      obtain ⟨result, -⟩ := run_of_runFor ended
      exact fun cut => own k ((result (.stepLimit k) (by simp)).1 cut)

/-- Where nobody else speaks of the step limit, a run that is cut short took as many steps as there
were in the budget. -/
theorem steps_of_stepLimit (punctual : chooser.Punctual) (punctual' : predictor.Punctual) {k : Int}
    (cut : ((fresh program target chooser predictor).conclude limit).result =
      .error (.stepLimit k)) :
    ((fresh program target chooser predictor).conclude limit).machine.elim (0 : Int) (·.steps) =
      max limit 0 := by
  rcases begun : boot (fresh program target chooser predictor) with ⟨e | ⟨⟩, m⟩
  · rw [conclude, begun] at cut
    obtain rfl := Except.error.inj cut
    exact absurd rfl (ne_stepLimit_of_boot punctual punctual' begun k)
  have later := later_of_boot (.fresh target chooser) begun
  have zero : m.steps = 0 := later.steps
  rw [conclude_of_boot begun] at cut ⊢
  obtain ⟨m', taken, stopped⟩ | ⟨n, less, m₁, f, m', taken, last, done⟩ :=
    runFor_cases (limit - m.steps).toNat m
  · obtain ⟨-, -, -, counted⟩ := run_of_runFor stopped
    have counted' := (taken.later later.laid).steps
    simp only [Option.elim_some, counted, zero] at counted' ⊢
    omega
  · have reached : Reachable program target chooser predictor m := ⟨m, begun, .refl⟩
    have other := (reached.takes taken).ne_stepLimit_of_step punctual punctual' last
    obtain ⟨result, -⟩ := run_of_runFor (done _ less)
    exact absurd ((result (.stepLimit k) (by simp)).1 cut) (other k)

end Machine

/-! ## Reports -/

theorem Outcome.ofFault?_eq_stepLimit {f : Fault} :
    Outcome.ofFault? f = some .stepLimit ↔ ∃ k, f = .stepLimit k := by
  cases f <;> simp [Outcome.ofFault?]

namespace Ending

variable {e : Ending} {strategy : Datum} {r : Report} {f : Fault}

/-- What is told of a fault is that fault, if it has an outcome. -/
theorem told_of_ofFault? {outcome : Outcome} (h : Outcome.ofFault? f.told = some outcome) :
    f.told = f := by
  rw [Fault.told] at h ⊢
  split
  · rfl
  · rename_i long
    rw [if_neg long] at h
    cases h

/-- What is reported is what was printed and counted, and an outcome: that of the fault, if the run
failed. -/
theorem report_eq_ok (h : e.report strategy = .ok r) :
    (e.result = .ok () ∧ r.outcome = .terminated ∨
        ∃ f, e.result = .error f ∧ Outcome.ofFault? f = some r.outcome) ∧
      r.stdout = e.machine.elim [] (·.stdout) ∧ r.stderr = e.machine.elim [] (·.stderr) ∧
      r.steps = e.machine.elim (0 : Int) (·.steps) := by
  obtain ⟨⟨outcome, message⟩, ended, h⟩ := bind_eq_ok_iff.1 h
  obtain rfl := Except.ok.inj h
  refine ⟨?_, rfl, rfl, rfl⟩
  unfold Ending.outcome at ended
  cases result : e.result with
  | ok u =>
      rw [result] at ended
      obtain ⟨rfl, -⟩ := Prod.mk.inj (Except.ok.inj ended)
      exact .inl ⟨rfl, rfl⟩
  | error f =>
      rw [result] at ended
      refine .inr ⟨f, rfl, ?_⟩
      simp only at ended
      cases known : Outcome.ofFault? f.told with
      | none =>
          rw [known] at ended
          cases ended
      | some other =>
          rw [known] at ended
          obtain ⟨rfl, -⟩ := Prod.mk.inj (Except.ok.inj ended)
          rwa [told_of_ofFault? known] at known

/-- A run is reported as cut short exactly if it ended in the step limit. -/
theorem outcome_eq_stepLimit_iff (h : e.report strategy = .ok r) :
    r.outcome = .stepLimit ↔ ∃ k, e.result = .error (.stepLimit k) := by
  obtain ⟨⟨ended, same⟩ | ⟨f, failed, known⟩, -⟩ := report_eq_ok h
  · simp [ended, same]
  · rw [failed, ← Option.some_inj (a := r.outcome), ← known, Outcome.ofFault?_eq_stepLimit]
    simp

/-- What is passed on as a defect is one. -/
theorem result_of_report_eq_defect {d : Defect} (h : e.report strategy = .error (.defect d)) :
    e.result = .error (.defect d) := by
  unfold report Ending.outcome at h
  cases result : e.result with
  | ok u =>
      rw [result] at h
      cases h
  | error f =>
      have told : f.told = .defect d := by
        rw [result] at h
        cases known : Outcome.ofFault? f.told with
        | none =>
            simp only [known] at h
            exact Except.error.inj h
        | some outcome =>
            simp only [known] at h
            cases h
      rw [Fault.told] at told
      split at told
      · rw [told]
      · cases told

end Ending

namespace Session

/-- A run of a program within a budget. -/
abbrev runWithin (budget : Int) (program : Program) (settings : Settings)
    (chooser : Option Chooser) (predictor : Predictor) : Action Session Report :=
  runProgram program { settings with maxSteps := budget } chooser predictor

variable {program : Program} {settings : Settings} {chooser : Option Chooser}
  {predictor : Predictor} {s : Session} {r : Report} {n m : Int} {o : Machine}

/-- The machine of a run has the chooser that is given, or else that of the settings, which leaves
the limit alone. -/
theorem exists_fresh_of_machine (made : settings.machine program chooser predictor = .ok o) :
    ∃ target c, o = .fresh program target c predictor ∧
      ((∀ d ∈ chooser, d.Punctual) → c.Punctual) := by
  obtain ⟨target, -, made⟩ := bind_eq_ok_iff.1 made
  obtain ⟨c, chosen, made⟩ := bind_eq_ok_iff.1 made
  obtain rfl := Except.ok.inj made
  refine ⟨target, c, rfl, fun given => ?_⟩
  cases chooser with
  | some d =>
      obtain rfl := Except.ok.inj chosen
      exact given d rfl
  | none =>
      obtain ⟨solver, -, chosen⟩ := bind_eq_ok_iff.1 chosen
      split at chosen
      · obtain rfl := Except.ok.inj chosen
        exact solver.chooser_punctual
      · obtain rfl := Except.ok.inj chosen
        nofun

/-- A run is that of the machine which the settings describe, and what comes of it that of how the
machine ends. -/
theorem runWithin_of_machine (made : settings.machine program chooser predictor = .ok o) :
    (runWithin n program settings chooser predictor s).1 =
        (o.conclude n).report settings.strategy ∧
      (o.conclude m = o.conclude n →
        runWithin m program settings chooser predictor s =
          runWithin n program settings chooser predictor s) := by
  have same (n : Int) :
      { settings with maxSteps := n }.machine program chooser predictor = .ok o := made
  simp only [runWithin, runProgram, same]
  constructor
  · cases (o.conclude n).report settings.strategy <;> rfl
  · intro ends
    rw [ends]
    rfl

/-- A run that is not cut short is the same within every larger budget, and so is one that the program
is to blame for. One that is cut short took as many steps as there were in the budget, if nobody
else speaks of the step limit, and has printed a beginning of what it prints within a larger one. And
a run that takes no more steps than there are in a budget is not cut short by that. -/
theorem budget_only_cuts (program : Program) (settings : Settings) (chooser : Option Chooser)
    (predictor : Predictor) (s : Session) {n m : Int} (le : n ≤ m) :
    let run (budget : Int) := runWithin budget program settings chooser predictor s
    (∀ r, (run n).1 = .ok r → r.outcome ≠ .stepLimit → run m = run n) ∧
    (∀ d, (run n).1 = .error (.defect d) → run m = run n) ∧
    (∀ r, (run n).1 = .ok r → r.outcome = .stepLimit →
      ((∀ c ∈ chooser, c.Punctual) → predictor.Punctual → r.steps = max n 0) ∧
      ∀ r', (run m).1 = .ok r' → r.stdout <+: r'.stdout ∧ r.stderr <+: r'.stderr) ∧
    (∀ r, (run m).1 = .ok r → r.outcome ≠ .stepLimit → r.steps ≤ n → run n = run m) ∧
    (∀ o k, settings.machine program chooser predictor = .ok o → o.Needs k → k ≤ n →
      ∀ r, (run n).1 = .ok r → r.outcome ≠ .stepLimit) := by
  intro run
  cases made : settings.machine program chooser predictor with
  | error fault =>
      have same (n : Int) : run n = (.error fault, s.noteTime settings) := by
        have made :
            { settings with maxSteps := n }.machine program chooser predictor = .error fault := made
        simp only [run, runWithin, runProgram, made]
        rfl
      simp [same]
  | ok o =>
      obtain ⟨target, c, rfl, punctual⟩ := exists_fresh_of_machine made
      have laid := Memory.Laid.fresh target c
      have report (n : Int) := (runWithin_of_machine (n := n) (m := n) (s := s) made).1
      have cut_iff {n : Int} {r : Report} (ok : (run n).1 = .ok r) :=
        Ending.outcome_eq_stepLimit_iff ((report n).symm.trans ok)
      have told {n : Int} {r : Report} (ok : (run n).1 = .ok r) :=
        Ending.report_eq_ok ((report n).symm.trans ok)
      refine ⟨fun r ok ends => ?_, fun d failed => ?_, fun r ok cut => ⟨fun given given' => ?_, ?_⟩,
        fun r ok ends steps => ?_, fun o k found needs le r ok cut => ?_⟩
      · refine (runWithin_of_machine made).2 ?_
        exact Machine.conclude_eq_of_ne_stepLimit le fun k cut => ends ((cut_iff ok).2 ⟨k, cut⟩)
      · refine (runWithin_of_machine made).2 ?_
        refine Machine.conclude_eq_of_ne_stepLimit le fun k cut => ?_
        have result := Ending.result_of_report_eq_defect ((report n).symm.trans failed)
        cases result.symm.trans cut
      · obtain ⟨k, cut⟩ := (cut_iff ok).1 cut
        obtain ⟨-, -, -, steps⟩ := told ok
        exact steps.trans (Machine.steps_of_stepLimit (punctual given) given' cut)
      · intro r' ok'
        obtain ⟨-, stdout, stderr, -⟩ := told ok
        obtain ⟨-, stdout', stderr', -⟩ := told ok'
        rw [stdout, stderr, stdout', stderr']
        exact Machine.output_prefix laid le
      · obtain ⟨known, -, -, counted⟩ := told ok
        refine (runWithin_of_machine made).2 (Machine.conclude_eq_of_steps_le laid ?_ ?_ ?_)
        · exact fun k cut => ends ((cut_iff ok).2 ⟨k, cut⟩)
        · intro d defect
          obtain ⟨ended, -⟩ | ⟨f, failed, known⟩ := known
          · cases ended.symm.trans defect
          · obtain rfl := Except.error.inj (failed.symm.trans defect)
            cases known
        · exact counted ▸ steps
      · obtain rfl := Except.ok.inj found
        obtain ⟨k, cut⟩ := (cut_iff ok).1 cut
        exact needs.ne_stepLimit le k cut

/-- A program that calls a function, which prints a number, within a budget. -/
abbrev callingWithin (budget : Int) (chooser : Chooser) : Except Fault Report × Session :=
  runWithin budget (calling (.function "five")) {} (some chooser) .standard quiet

theorem exists_report {x : Except Fault Report} {α : Type} {g : Report → α} {a : α}
    (h : x.toOption.map g = some a) : ∃ r, x = .ok r ∧ g r = a := by
  cases x with
  | error e => cases h
  | ok r => exact ⟨r, rfl, Option.some.inj h⟩

/-- The program needs four steps. Within three it is cut short after three, with what it has printed
by then, and within a hundred it does nothing else than within four. -/
theorem budget_of_callByName :
    (3 : Int) ≤ 4 ∧ (∃ r r', (callingWithin 3 (inTurnFrom 1)).1 = .ok r ∧
      r.outcome = .stepLimit ∧ r.steps = max 3 0 ∧
      (callingWithin 4 (inTurnFrom 1)).1 = .ok r' ∧ r'.outcome = .terminated ∧ r'.steps = 4 ∧
      r.stdout <+: r'.stdout) ∧
    callingWithin 100 (inTurnFrom 1) = callingWithin 4 (inTurnFrom 1) := by
  obtain ⟨r, ok, cut⟩ := exists_report (g := (·.outcome)) (a := .stepLimit)
    (x := (callingWithin 3 (inTurnFrom 1)).1) (by decide +kernel)
  obtain ⟨r', ok', known⟩ := exists_report (g := fun r => (r.outcome, r.steps))
    (a := (.terminated, 4)) (x := (callingWithin 4 (inTurnFrom 1)).1) (by decide +kernel)
  obtain ⟨ended, steps⟩ := Prod.mk.inj known
  obtain ⟨-, -, short, -⟩ := budget_only_cuts (calling (.function "five")) {}
    (some (inTurnFrom 1)) .standard quiet (n := 3) (m := 4) (by decide)
  obtain ⟨longer, -⟩ := budget_only_cuts (calling (.function "five")) {}
    (some (inTurnFrom 1)) .standard quiet (n := 4) (m := 100) (by decide)
  obtain ⟨counted, printed⟩ := short r ok cut
  refine ⟨by decide, ⟨r, r', ok, cut, counted ?_ Predictor.standard_punctual, ok', ended, steps,
    (printed r' ok').1⟩, longer r' ok' (by rw [ended]; decide)⟩
  rintro _ ⟨⟩
  nofun

/-- A program whose first block is missing. -/
def goingNowhere : Program where
  functions := ⟨[("main", plainFunction .bool [])]⟩

/-- A chooser that says that the step limit was reached cuts a run short that took no step. And a run
that takes no step because there is no block to take it in, and so ends without one, is cut short by
a budget of none. -/
theorem chooser_cuts_short :
    (∃ r, (callingWithin 1000000 (.scripted [.error (.stepLimit 7)])).1 = .ok r ∧
      r.outcome = .stepLimit ∧ r.steps = 0) ∧
    (∃ r, (runWithin 0 goingNowhere {} (some (inTurnFrom 1)) .standard quiet).1 = .ok r ∧
      r.outcome = .stepLimit) ∧
    ((Machine.fresh goingNowhere ⟨8, .little⟩ (inTurnFrom 1) .standard).conclude 1).machine.elim
      1 (·.steps) = 0 := by
  obtain ⟨r, ok, known⟩ := exists_report (g := fun r => (r.outcome, r.steps))
    (a := (.stepLimit, 0)) (x := (callingWithin 1000000 (.scripted [.error (.stepLimit 7)])).1)
    (by decide +kernel)
  obtain ⟨r', ok', cut⟩ := exists_report (g := (·.outcome)) (a := .stepLimit)
    (x := (runWithin 0 goingNowhere {} (some (inTurnFrom 1)) .standard quiet).1)
    (by decide +kernel)
  obtain ⟨stopped, steps⟩ := Prod.mk.inj known
  exact ⟨⟨r, ok, stopped, steps⟩, ⟨r', ok', cut⟩, by decide +kernel⟩

end Session

end AbstractMachine
