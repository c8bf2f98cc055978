/-
# AbstractMachine.Proofs.Machine.Escapes — what escapes from a run

Running a program yields a report. Two things are passed on instead: a defect, which is what the run
is there to find, and a number with too many digits. The second one is nobody's finding. A program
may print such a number, and a message may have to name one; neither is kept from happening
(`printing_wide_escapes`). Nothing else escapes from a program whose types are workable, however
wrong it is (`Session.reported_or_blamed`). In particular no question about a type, an integer or an
access is left without an answer in any machine that the program comes to.

All of this is up to the room that there is to run in. Lists have any length here: `AbsByte.blank`
and `Memory.allocate` make as many bytes as they are asked for, and a run goes as deep as its
program. A host that runs out of memory, of list positions or of stack fails in ways that are not
faults.
-/
import AbstractMachine.Proofs.Machine.Foreseen
import AbstractMachine.Proofs.Noninterference.Reports

namespace AbstractMachine

/-! ## Settings -/

/-- Settings that say what they should: a width and an order of bytes, a strategy, a seed without
parts, and a number for the time that the solver may take. -/
structure Settings.Usable (s : Settings) : Prop where
  target : ∃ t, s.target = .ok t
  strategy : ∃ strategy, s.addressStrategy = .ok strategy
  seed : ∃ seed, s.seed.atom = .ok seed
  timeLimit : ∃ n, s.solverTimeoutMs = .int n

theorem Settings.usable_default : Settings.Usable {} :=
  ⟨⟨_, rfl⟩, ⟨.lowest, rfl⟩, ⟨_, rfl⟩, ⟨_, rfl⟩⟩

variable {settings : Settings} {program : Program} {chooser : Option Chooser}
  {predictor : Predictor}

/-- The chooser that usable settings describe is a solver. -/
theorem Settings.Usable.exists_chooser (h : settings.Usable) :
    ∃ c, settings.chooser = .ok c ∧ c.Foreseeable := by
  obtain ⟨strategy, chosen⟩ := h.strategy
  obtain ⟨seed, seeded⟩ := h.seed
  obtain ⟨n, limited⟩ := h.timeLimit
  refine ⟨Solver.chooser { strategy }, ?_, Solver.foreseeable_chooser _⟩
  unfold Settings.chooser Settings.solver
  rw [chosen, seeded, limited]
  rfl

/-- Usable settings make a workable machine of a workable program. -/
theorem Settings.Usable.exists_machine (h : settings.Usable) (hp : program.Workable)
    (hc : ∀ c ∈ chooser, c.Foreseeable) (hq : predictor.Foreseeable) :
    ∃ o, settings.machine program chooser predictor = .ok o ∧ o.Workable := by
  obtain ⟨target, described⟩ := h.target
  have width := Settings.one_le_ptrSize described
  obtain ⟨c, chosen, foreseeable⟩ : ∃ c, chooser.elim settings.chooser .ok = .ok c ∧
      c.Foreseeable := by
    cases chooser with
    | none => exact h.exists_chooser
    | some c => exact ⟨c, rfl, hc c rfl⟩
  refine ⟨.fresh program target c predictor, ?_, Machine.workable_fresh width hp foreseeable hq⟩
  unfold Settings.machine
  rw [described, chosen]
  rfl

/-! ## Endings -/

/-- The way in which the execution of a workable program ends. -/
def Ending.Foreseen (e : Ending) : Prop :=
  ∀ f, e.result = .error f → f.Foreseen ∨ f = .arithmetic .tooManyDigits

namespace Machine

variable {m : Machine}

/-- A workable machine comes to an end that is foreseen, and no machine that fails before its first
step comes to the end of its program. -/
theorem Workable.conclude (h : m.Workable) (limit : Int) : (m.conclude limit).Foreseen := by
  intro f ended
  unfold Machine.conclude at ended
  rcases begun : boot m with ⟨e | u, m'⟩
  · rw [begun] at ended
    obtain rfl := Except.error.inj ended
    exact .inl (works_boot.error h begun).2
  · rw [begun] at ended
    exact (works_boot.ok h begun).1.run (Prod.ext ended rfl)

end Machine

/-- What is told of a fault that is foreseen is a fault with an outcome, a defect, or that there are
too many digits to tell it. -/
theorem Fault.Foreseen.told {f : Fault} (h : f.Foreseen ∨ f = .arithmetic .tooManyDigits) :
    (∃ outcome, Outcome.ofFault? f.told = some outcome) ∨ (∃ d, f.told = .defect d) ∨
      f.told = .arithmetic .tooManyDigits := by
  by_cases short : f.numbers.all Text.isShort
  · rw [Fault.told, if_pos short]
    rcases h with foreseen | rfl
    · cases f with
      | defect d => exact .inr (.inl ⟨d, rfl⟩)
      | terminated | arithmetic | setting => cases foreseen
      | _ => exact .inl ⟨_, rfl⟩
    · exact .inr (.inr rfl)
  · exact .inr (.inr (if_neg short))

/-- A foreseen end is reported, or passed on as a defect, or there are too many digits to tell it.
-/
theorem Ending.Foreseen.report {e : Ending} (h : e.Foreseen) (strategy : Datum) :
    (∃ r, e.report strategy = .ok r) ∨ (∃ d, e.report strategy = .error (.defect d)) ∨
      e.report strategy = .error (.arithmetic .tooManyDigits) := by
  unfold Ending.report Ending.outcome
  cases ended : e.result with
  | ok u => exact .inl ⟨_, rfl⟩
  | error f =>
      simp only
      obtain ⟨outcome, known⟩ | ⟨d, told⟩ | told := Fault.Foreseen.told (h f ended)
      · rw [known]
        exact .inl ⟨_, rfl⟩
      · rw [told]
        exact .inr (.inl ⟨d, rfl⟩)
      · rw [told]
        exact .inr (.inr rfl)

/-! ## Reachable machines -/

namespace Machine

variable {target : Target} {c : Chooser} {m : Machine}

/-- Whatever is asked in this machine is answered, or fails in a way that is foreseen. -/
structure Guarded (m : Machine) : Prop where
  /-- A step may also end the program, or find no digits to print. -/
  steps : ∀ f m', step m = (.error f, m') → f.OfStep
  places : ∀ e : PlaceExpr, e.Workable → FailsIn Fault.Foreseen (evalPlace e m).1
  values : ∀ e : ValueExpr, e.Workable → FailsIn Fault.Foreseen (evalValue e m).1
  decoding : ∀ (ty : Ty) data, ty.Every Ty.Workable → FailsIn Fault.Foreseen (ty.decode m.target data)
  encoding : ∀ (ty : Ty) v, ty.Every Ty.Workable → FailsIn Fault.Foreseen (ty.encode m.target v)
  operators : ∀ (op : IntBinOp) (t : IntTy) l r, 1 ≤ t.size → FailsIn Fault.Foreseen (op.eval t l r)
  accesses : ∀ p size align, 1 ≤ align →
    FailsIn Fault.Foreseen (m.store.memory.checkPtr p size align)

theorem Works.failsIn {E : Fault → Prop} {α : Type} {x : Action Machine α} {V : α → Prop}
    (h : Works E x V) (hm : m.Workable) : FailsIn E (x m).1 :=
  fun _ failed => (h.error hm (Prod.ext failed rfl)).2

theorem Workable.guarded (h : m.Workable) : m.Guarded where
  steps f _ run := (h.step run).2 f rfl
  places e he := (works_evalPlace e he).failsIn h
  values e he := (works_evalValue e he).failsIn h
  decoding _ data hty := Ty.foreseen_decode h.width hty data
  encoding _ v hty := Ty.foreseen_encode h.width hty v
  operators op _ l r sized := op.foreseen_eval sized l r
  accesses p size _ aligned := m.store.memory.foreseen_checkPtr p size aligned

/-- A workable machine never stops being one. -/
theorem Reachable.workable (h : Reachable program target c predictor m)
    (begun : (fresh program target c predictor).Workable) : m.Workable := by
  obtain ⟨m₀, booted, steps⟩ := h
  induction steps with
  | refl => exact (works_boot.ok begun booted).1
  | tail _ made ih => exact (ih.step made).1

end Machine

/-! ## Runs of programs -/

namespace Session

/-- Running a workable program under usable settings yields a report, or a defect, or there are too
many digits to write. On the way no machine is come to in which anything else can happen. That is to
say, nothing else while the host has room: limits on the size of a list are not modelled, so an
allocation of any size that the target allows is made. -/
theorem reported_or_blamed (usable : settings.Usable) (workable : program.Workable)
    (chooses : ∀ c ∈ chooser, c.Foreseeable) (predicts : predictor.Foreseeable) (s : Session) :
    let run := (runProgram program settings chooser predictor s).1
    ((∃ r, run = .ok r) ∨ (∃ d, run = .error (.defect d)) ∨
      run = .error (.arithmetic .tooManyDigits)) ∧
    ∀ target c m,
      settings.machine program chooser predictor = .ok (.fresh program target c predictor) →
      Machine.Reachable program target c predictor m → m.Guarded := by
  obtain ⟨o, made, begun⟩ := usable.exists_machine workable chooses predicts
  constructor
  · simp only [runProgram, made]
    have ended := (begun.conclude settings.maxSteps).report settings.strategy
    cases known : (o.conclude settings.maxSteps).report settings.strategy with
    | ok r => exact .inl ⟨r, rfl⟩
    | error f =>
        rw [known] at ended
        simpa using ended
  · intro target c m described reached
    obtain rfl := Except.ok.inj (made.symm.trans described)
    exact (reached.workable begun).guarded

/-- A program whose only function does some statements and prints some values. -/
def printingAfter (statements : List Statement) (printed : List ValueExpr) : Program where
  functions := ⟨[("main", plainFunction .bool
    [("start", ⟨statements, .intrinsic .printStdout printed none (some "end")⟩),
      ("end", ⟨[], .ret⟩)])]⟩

theorem workable_printingAfter {statements : List Statement} {printed : List ValueExpr}
    (hs : ∀ s ∈ statements, s.Workable) (hp : ∀ e ∈ printed, e.Workable) :
    (printingAfter statements printed).Workable := by
  have locals : ∀ d ∈ [("ret", (⟨.unit, 1⟩ : PlaceTy)), ("x", ⟨.bool, 1⟩)], d.2.Workable :=
    List.forall_mem_cons.2 ⟨⟨Int.le_refl 1, Ty.all_workable_unit⟩,
      List.forall_mem_singleton.2 ⟨Int.le_refl 1, Ty.all_workable_bool⟩⟩
  refine List.forall_mem_singleton.2 ⟨locals, ?_⟩
  exact List.forall_mem_cons.2 ⟨⟨hs, hp, nofun⟩, List.forall_mem_singleton.2 ⟨nofun, trivial⟩⟩

/-- A field that a tuple does not have, in a tuple whose one field lies outside of it. -/
def missingField : PlaceExpr :=
  .field (.deref (.address 4 (.ptr .raw)) ⟨.tuple [⟨-3, .bool⟩] 1, 1⟩) 7

theorem workable_missingField : missingField.Workable := by
  have tuple : (Ty.tuple [⟨-3, .bool⟩] 1).All Ty.Workable :=
    .intro ⟨trivial, trivial, trivial⟩ (List.forall_mem_singleton.2 Ty.all_workable_bool)
  exact ⟨⟨Int.le_refl 1, tuple⟩, Ty.all_workable_raw⟩

/-- Whether a defect is passed on. -/
def blames : Except Fault Report → Bool
  | .error (.defect _) => true
  | _ => false

theorem exists_defect_of_blames {x : Except Fault Report} (h : blames x = true) :
    ∃ d, x = .error (.defect d) := by
  unfold blames at h
  split at h
  · exact ⟨_, rfl⟩
  · cases h

/-- A program that goes to a field which is not there is blamed for it, and nothing worse happens
before that. -/
theorem blamed_for_missingField :
    Settings.Usable {} ∧ (printingAfter [.mention missingField] []).Workable ∧
    Predictor.standard.Foreseeable ∧
    (∃ d, (runProgram (printingAfter [.mention missingField] []) {} none .standard quiet).1 =
      .error (.defect d)) ∧
    ∀ m, Machine.Reachable (printingAfter [.mention missingField] []) .standard
      (Solver.chooser { strategy := .lowest }) .standard m → m.Guarded := by
  have workable : (printingAfter [.mention missingField] []).Workable :=
    workable_printingAfter (List.forall_mem_singleton.2 workable_missingField) nofun
  have chooses : ∀ c ∈ (none : Option Chooser), c.Foreseeable := nofun
  obtain ⟨-, guarded⟩ := reported_or_blamed Settings.usable_default workable chooses
    Predictor.foreseeable_standard quiet
  exact ⟨Settings.usable_default, workable, Predictor.foreseeable_standard,
    exists_defect_of_blames (by decide +kernel), fun m => guarded _ _ m rfl⟩

/-- The bits of zero flipped, at a type of two thousand bytes. -/
def wideOnes : ValueExpr := .unary .bitNot (.int 0 (.int ⟨false, 2000⟩))

theorem workable_wideOnes : wideOnes.Workable :=
  ⟨nofun, Ty.all_workable_int (by decide)⟩

/-- Whether there are too many digits to write. -/
def findsTooManyDigits : Except Fault Report → Bool
  | .error (.arithmetic .tooManyDigits) => true
  | _ => false

theorem eq_of_findsTooManyDigits {x : Except Fault Report} (h : findsTooManyDigits x = true) :
    x = .error (.arithmetic .tooManyDigits) := by
  unfold findsTooManyDigits at h
  split at h
  · rfl
  · cases h

/-- A program that prints a number of nearly five thousand digits is neither reported on nor blamed.
-/
theorem printing_wide_escapes :
    Settings.Usable {} ∧ (printingAfter [] [wideOnes]).Workable ∧
    Predictor.standard.Foreseeable ∧
    ¬((∃ r, (runProgram (printingAfter [] [wideOnes]) {} none .standard quiet).1 = .ok r) ∨
      ∃ d, (runProgram (printingAfter [] [wideOnes]) {} none .standard quiet).1 =
        .error (.defect d)) := by
  have escapes : (runProgram (printingAfter [] [wideOnes]) {} none .standard quiet).1 =
      .error (.arithmetic .tooManyDigits) := eq_of_findsTooManyDigits (by decide +kernel)
  refine ⟨Settings.usable_default, workable_printingAfter nofun
    (List.forall_mem_singleton.2 workable_wideOnes), Predictor.foreseeable_standard, ?_⟩
  rw [escapes]
  rintro (⟨r, ⟨⟩⟩ | ⟨d, ⟨⟩⟩)

end Session

end AbstractMachine
