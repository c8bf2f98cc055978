/-
# AbstractMachine.Proofs.Noninterference.Reports — reports say nothing about addresses

Two machines that differ in nothing but their choosers are twins before anything is allocated. They
place their functions, begin, and run in step. So what is reported of a blind program that calls no
address is the same for every chooser that does not fail: the outcome and the message, what was
printed, the number of steps and of allocations, or the fault that is no answer about the program.

A program that calls an address does observe it. Nothing stops a constant from being a pointer, even
at a type that has none, and whether there is a function at the address is up to the chooser.
-/
import AbstractMachine.Proofs.Noninterference.Execution
import AbstractMachine.Session

namespace AbstractMachine

variable {target : Target} {W : List Site} {m n : Machine} {limit : Int} {α β : Type}

namespace Machine

/-! ## The beginning -/

theorem alike_boot (grounds : m.Grounds) (grounds' : n.Grounds) (twins : Twins target W m n) :
    Alike target Whatever W (boot m) (boot n) := by
  unfold boot
  rw [Action.apply_bind_of_ok (Action.apply_get m), Action.apply_bind_of_ok (Action.apply_get n),
    twins.program]
  refine (alike_placeFunctions grounds grounds' twins).bind fun W' _ _ m' n' _ _ _ twins _ => ?_
  refine Mirrors.bindExcept (fun function _ => ?_) (List.prefix_refl W') twins
  refine (mirrors_newFrame _).bind fun _ f g _ twins => ?_
  exact (mirrors_beginLocal twins _).bind fun _ _ _ _ begun => .push begun.2

/-- Before anything is allocated, machines with different choosers are twins. -/
theorem twins_fresh {program : Program} {c d : Chooser} {predictor : Predictor}
    (blind : program.Blind target) (calls : ¬program.CallsAddress) :
    Twins target [] (fresh program target c predictor) (fresh program target d predictor) where
  program := rfl
  blind := blind
  calls := calls
  memory := ⟨rfl, rfl, .fresh target c, .fresh target d, rfl, rfl, nofun⟩
  functions := .nil
  left := .nil
  right := .nil
  stack := .nil
  stdout := rfl
  stderr := rfl
  steps := rfl
  terminated := rfl

/-! ## Reports -/

/-- The state in which a machine is left, whether it got past its beginning or not. -/
def final (m : Machine) (limit : Int) : Machine :=
  match boot m with
  | (.error _, m) => m
  | (.ok (), m) => (run limit m).2

theorem not_spoilt_boot (served : (m.final limit).store.memory.Served) : ¬Spoilt (boot m) := by
  rintro ⟨e, failed, blame⟩
  rcases begun : boot m with ⟨x, m'⟩
  rw [begun] at failed blame
  obtain rfl : x = .error e := failed
  rw [final, begun] at served
  exact blame served

theorem conclude_of_boot {m' : Machine} (begun : boot m = (.ok (), m')) :
    m.conclude limit =
      ⟨(run limit m').1, some (run limit m').2, (run limit m').2.store.journal⟩ := by
  rw [conclude, begun]
  rfl

/-- What is reported is the same, if no chooser fails. -/
theorem report_eq {V : List Site → Unit → Unit → Prop} (begun : Alike target V W (boot m) (boot n))
    (served : (m.final limit).store.memory.Served)
    (served' : (n.final limit).store.memory.Served) (strategy : Datum) :
    (n.conclude limit).report strategy = (m.conclude limit).report strategy := by
  obtain ⟨W', -, twins, agree⟩ :=
    begun.of_not_spoilt (not_spoilt_boot served) (not_spoilt_boot served')
  rcases left : boot m with ⟨x, m'⟩
  rcases right : boot n with ⟨y, n'⟩
  rw [left, right] at twins agree
  cases agree with
  | error e =>
      rw [conclude, conclude, left, right]
      rfl
  | ok _ =>
      rw [final, left] at served
      rw [final, right] at served'
      obtain ⟨same, W'', twins⟩ := run_twins twins served served'
      rw [conclude_of_boot left, conclude_of_boot right]
      simp only [Ending.report, Ending.outcome, Option.elim_some, same, twins.stdout, twins.stderr,
        twins.steps, twins.memory.left_length, twins.memory.right_length]

end Machine

namespace Settings

variable {program : Program} {settings : Settings} {chooser : Chooser} {predictor : Predictor}

/-- With these settings the chooser does not fail in a run of the program. -/
def Serves (settings : Settings) (program : Program) (chooser : Chooser) (predictor : Predictor) :
    Prop :=
  ∀ m, settings.machine program (some chooser) predictor = .ok m →
    (m.final settings.maxSteps).store.memory.Served

theorem machine_eq (aim : settings.target = .ok target) :
    settings.machine program (some chooser) predictor =
      .ok (.fresh program target chooser predictor) := by
  rw [machine, aim]
  rfl

theorem machine_eq_error {fault : Fault} (aim : settings.target = .error fault) :
    settings.machine program (some chooser) predictor = .error fault := by
  rw [machine, aim]
  rfl

theorem serves_of_target (aim : settings.target = .ok target)
    (served : Memory.Served
      ((Machine.fresh program target chooser predictor).final settings.maxSteps).store.memory) :
    settings.Serves program chooser predictor := by
  intro m made
  obtain rfl := Except.ok.inj ((machine_eq aim).symm.trans made)
  exact served

end Settings

namespace Session

variable {program : Program} {settings : Settings} {chooser : Chooser} {predictor : Predictor}

theorem runProgram_fst (aim : settings.target = .ok target) (s : Session) :
    (runProgram program settings (some chooser) predictor s).1 =
      ((Machine.fresh program target chooser predictor).conclude settings.maxSteps).report
        settings.strategy := by
  unfold runProgram
  rw [Settings.machine_eq aim]
  simp only
  cases ((Machine.fresh program target chooser predictor).conclude settings.maxSteps).report
      settings.strategy with
  | error fault => rfl
  | ok r => rfl

/-- Addresses are not observed. Whatever the settings and whatever the two choosers do, if neither
of them fails then what is reported of a blind program that calls no address is the same, or it is
the same fault that keeps it from being reported. -/
theorem runProgram_eq_of_blind {c d : Chooser}
    (blind : ∀ target, settings.target = .ok target → program.Blind target)
    (calls : ¬program.CallsAddress) (served : settings.Serves program c predictor)
    (served' : settings.Serves program d predictor) (s : Session) :
    (runProgram program settings (some d) predictor s).1 =
      (runProgram program settings (some c) predictor s).1 := by
  cases aim : settings.target with
  | error fault =>
      unfold runProgram
      rw [Settings.machine_eq_error aim, Settings.machine_eq_error aim]
  | ok target =>
      rw [runProgram_fst aim, runProgram_fst aim]
      have twins : Machine.Twins target [] (.fresh program target c predictor)
          (.fresh program target d predictor) := Machine.twins_fresh (blind target aim) calls
      exact Machine.report_eq (Machine.alike_boot Machine.grounds_fresh Machine.grounds_fresh twins)
        (served _ (Settings.machine_eq aim)) (served' _ (Settings.machine_eq aim)) _

/-! ## Programs that call -/

/-- A function without arguments and without a result, with these blocks and one local. -/
def plainFunction (ty : Ty) (blocks : List (String × Block)) : Function where
  locals := ⟨[("ret", ⟨.unit, 1⟩), ("x", ⟨ty, 1⟩)]⟩
  params := []
  result := "ret"
  resultAbi := { size := 0, align := 1 }
  start := "start"
  blocks := ⟨blocks⟩

/-- A program that calls a function, which prints a number. -/
def calling (callee : ValueExpr) : Program where
  functions := ⟨[
    ("main", plainFunction .bool [
      ("start", ⟨[], .call callee [] (.var "ret") { size := 0, align := 1 } (some "end") .rust⟩),
      ("end", ⟨[], .ret⟩)]),
    ("five", plainFunction .bool [
      ("start", ⟨[], .intrinsic .printStdout [.int 5 (.int ⟨false, 1⟩)] none (some "end")⟩),
      ("end", ⟨[], .ret⟩)])]⟩

theorem blind_plainFunction {ty : Ty} {blocks : List (String × Block)}
    (inward : ty.All (Ty.Inward target)) (blind : ∀ b ∈ blocks, b.2.Blind) :
    (plainFunction ty blocks).Blind target where
  locals := by
    have unit : Ty.unit.All (Ty.Inward target) :=
      .of_parts_eq_nil rfl ⟨not_false, nofun, trivial, trivial⟩
    exact List.forall_mem_cons.2 ⟨unit, List.forall_mem_singleton.2 inward⟩
  blocks := blind

/-- It is blind if the callee is. -/
theorem blind_calling {callee : ValueExpr} (blind : callee.BlindCallee) :
    (calling callee).Blind target := by
  have bool : Ty.bool.All (Ty.Inward target) :=
    .of_parts_eq_nil rfl ⟨not_false, trivial, trivial, trivial⟩
  refine List.forall_mem_cons.2 ⟨blind_plainFunction bool ?_,
    List.forall_mem_singleton.2 (blind_plainFunction bool ?_)⟩
  · exact List.forall_mem_cons.2 ⟨⟨nofun, blind, nofun, trivial⟩,
      List.forall_mem_singleton.2 ⟨nofun, trivial⟩⟩
  · exact List.forall_mem_cons.2 ⟨⟨nofun, trivial, List.forall_mem_singleton.2 trivial, nofun⟩,
      List.forall_mem_singleton.2 ⟨nofun, trivial⟩⟩

theorem isAddress_of_calling {callee : ValueExpr} (calls : (calling callee).CallsAddress) :
    callee.IsAddress := by
  obtain ⟨f, hf, b, hb, calls⟩ := calls
  rcases List.mem_pair.1 hf with rfl | rfl
  · rcases List.mem_pair.1 hb with rfl | rfl
    · exact calls
    · exact calls.elim
  · rcases List.mem_pair.1 hb with rfl | rfl
    · exact calls.elim
    · exact calls.elim

/-- Allocations are put one behind the other from an address on, as far as they are small. -/
def inTurnFrom (start : Int) : Chooser := fun asked _ => .ok (asked.length + start)

/-- A session in which nothing was run yet. -/
def quiet : Session := { logger := { clock := "" }, elapsed := "" }

/-- The report on a program that calls a function by its name, which lies somewhere from `start`. -/
def calledByName (start : Int) : Except Fault Report :=
  (runProgram (calling (.function "five")) {} (some (inTurnFrom start)) .standard quiet).1

/-- A function is called by its name, wherever it lies. -/
theorem runProgram_callByName :
    calledByName 100 = calledByName 1 ∧
      (calledByName 1).toOption.map (fun r => (r.outcome, r.stdout, r.steps, r.allocations)) =
        some (.terminated, ["5"], 4, 4) := by
  have usual : ({} : Settings).target = .ok ⟨8, .little⟩ := rfl
  have blind : (ValueExpr.function "five").BlindCallee := trivial
  refine ⟨runProgram_eq_of_blind (fun _ _ => blind_calling blind) ?_ ?_ ?_ quiet, ?_⟩
  · exact fun calls => isAddress_of_calling calls
  · exact Settings.serves_of_target usual (by decide +kernel)
  · exact Settings.serves_of_target usual (by decide +kernel)
  · decide +kernel

/-! ## Programs that do observe addresses -/

/-- Neither of two choosers fails, and yet the reports differ. -/
def Tells (program : Program) (settings : Settings) (c d : Chooser) : Prop :=
  settings.Serves program c .standard ∧ settings.Serves program d .standard ∧
    (runProgram program settings (some d) .standard quiet).1 ≠
      (runProgram program settings (some c) .standard quiet).1

/-- A field that begins behind its tuple and ends inside of it, since it has less than no bytes. -/
def behind : Field := ⟨100, .array (.int ⟨false, 1⟩) (-100)⟩

/-- A program that goes to the field. -/
def goingBehind : Program where
  functions := ⟨[("main", plainFunction (.tuple [behind] 1)
    [("start", ⟨[.live "x", .mention (.field (.var "x") 0)], .ret⟩)])]⟩

/-- Addresses are observed by a blind program that calls one, and by one that is blind but for a
field whose offset is not inside the tuple although its end is not behind it. -/
theorem observes_address :
    ((calling (.constant (.ptr ⟨2, none⟩) (.int ⟨false, 1⟩))).Blind ⟨8, .little⟩ ∧
      Tells (calling (.constant (.ptr ⟨2, none⟩) (.int ⟨false, 1⟩))) {} (inTurnFrom 1)
        (inTurnFrom 100)) ∧
    (0 ≤ behind.offset ∧ behind.offset + behind.ty.byteSize ⟨1, .little⟩ ≤ 1 ∧
      (∀ e ∈ goingBehind.functions.entries, ∀ b ∈ e.2.blocks.entries, b.2.Blind) ∧
      ¬goingBehind.CallsAddress ∧
      Tells goingBehind { ptrSize := .int 1 } (inTurnFrom 1) (inTurnFrom 200)) := by
  have usual : ({} : Settings).target = .ok ⟨8, .little⟩ := rfl
  have narrow : ({ ptrSize := .int 1 } : Settings).target = .ok ⟨1, .little⟩ := rfl
  refine ⟨⟨blind_calling trivial, ?_, ?_, fun same => ?_⟩, by decide, by decide, ?_, ?_, ?_, ?_,
    fun same => ?_⟩
  · exact Settings.serves_of_target usual (by decide +kernel)
  · exact Settings.serves_of_target usual (by decide +kernel)
  · exact absurd (congrArg (fun r => r.toOption.map (·.outcome)) same) (by decide +kernel)
  · intro e he b hb
    obtain rfl := List.mem_singleton.1 he
    obtain rfl := List.mem_singleton.1 hb
    exact ⟨List.forall_mem_cons.2 ⟨trivial, List.forall_mem_singleton.2 trivial⟩, trivial⟩
  · rintro ⟨e, he, b, hb, calls⟩
    obtain rfl := List.mem_singleton.1 he
    obtain rfl := List.mem_singleton.1 hb
    exact calls
  · exact Settings.serves_of_target narrow (by decide +kernel)
  · exact Settings.serves_of_target narrow (by decide +kernel)
  · exact absurd (congrArg (fun r => r.toOption.map (·.message)) same) (by decide +kernel)

end Session

end AbstractMachine
