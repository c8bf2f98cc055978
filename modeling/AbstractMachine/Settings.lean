/-
# AbstractMachine.Settings — what can be set for a run

Settings come from outside and are taken as they are: a value of the wrong kind is kept, shown and
written out again, and refused when it is used. The one exception is the limit on steps, which has
to be a number from the start.

Settings are grouped in sections of keys. `Settings.sections` lists them in the order in which they
are written; `Settings.apply` takes over what a datum says, and ignores what it does not know.
-/
import AbstractMachine.Choice.Address
import AbstractMachine.Datum
import AbstractMachine.Log.Entry

namespace AbstractMachine

/-- What can be set for a run. -/
structure Settings where
  ptrSize : Datum := .int 8
  endianness : Datum := .text "little"
  strategy : Datum := .text "lowest"
  seed : Datum := .scalar .null
  solverTimeoutMs : Datum := .int 10000
  maxSteps : Int := 1000000
  verbosity : Datum := .text "normal"
  colour : Datum := .bool true
  echoStdout : Datum := .bool false

namespace Settings

/-- All settings by section and key, in the order in which they are written. -/
def sections (s : Settings) : List (String × List (String × Datum)) :=
  [("target", [("ptr_size", s.ptrSize), ("endianness", s.endianness)]),
   ("choice", [("address_strategy", s.strategy), ("seed", s.seed),
     ("solver_timeout_ms", s.solverTimeoutMs)]),
   ("limits", [("max_steps", .int s.maxSteps)]),
   ("output", [("verbosity", s.verbosity), ("color", s.colour), ("echo_stdout", s.echoStdout)])]

/-! ## What settings mean -/

/-- The order of bytes. -/
def byteOrder (s : Settings) : Except Fault Endian :=
  match s.endianness with
  | .text name => (Endian.ofName? name).elim (.error (.setting .endianness)) .ok
  | _ => .error (.setting .endianness)

/-- The pointer widths that a target may have. -/
def pointerSizes : List Int := [1, 2, 4, 8, 16]

/-- The width of a pointer. -/
def pointerSize (s : Settings) : Except Fault Int :=
  match s.ptrSize.number?.filter (· ∈ pointerSizes) with
  | some n => .ok n
  | none => .error (.setting (.pointerSize s.ptrSize.plain))

/-- The target that the settings describe. -/
def target (s : Settings) : Except Fault Target := do
  return { ptrSize := ← s.pointerSize, endian := ← s.byteOrder }

theorem mem_pointerSizes {s : Settings} {n : Int} (h : s.pointerSize = .ok n) :
    n ∈ pointerSizes := by
  simp only [pointerSize] at h
  split at h
  · next found =>
      have member := (Option.filter_eq_some_iff.1 found).2
      cases h
      exact of_decide_eq_true member
  · simp at h

/-- A target that settings describe has pointers of at least one byte. -/
theorem one_le_ptrSize {s : Settings} {t : Target} (h : s.target = .ok t) : 1 ≤ t.ptrSize := by
  rw [target] at h
  cases width : s.pointerSize with
  | error f => simp [width, bind, Except.bind] at h
  | ok n =>
      cases order : s.byteOrder with
      | error f => simp [width, order, bind, Except.bind] at h
      | ok e =>
          have member := mem_pointerSizes width
          simp only [pointerSizes, List.mem_cons, List.not_mem_nil, or_false] at member
          simp only [width, order, bind, Except.bind, pure, Except.pure, Except.ok.injEq] at h
          subst h
          show 1 ≤ n
          rcases member with rfl | rfl | rfl | rfl | rfl <;> decide

/-- The strategy by which addresses are chosen. What is no text at all stands for the first one. -/
def addressStrategy (s : Settings) : Except Fault Strategy :=
  match s.strategy with
  | .text name =>
      (Strategy.ofName? name).elim (.error (.setting (.strategy (Text.quoted name)))) .ok
  | _ => .ok .lowest

/-- The solver for addresses. Its seed must have no parts. -/
def solver (s : Settings) : Except Fault Solver := do
  let strategy ← s.addressStrategy
  let _ ← s.seed.atom
  return { strategy }

/-- The chooser of addresses. Without a number for the time that it may take, the solver answers no
question. -/
def chooser (s : Settings) : Except Fault Chooser := do
  let solver ← s.solver
  match s.solverTimeoutMs with
  | .int _ => return solver.chooser
  | _ => return fun _ _ => .error (.setting .timeLimit)

/-- A letter as a capital. Two letters outside the alphabet have capitals in it. -/
def capital (c : Char) : Char :=
  if c == 'ı' then 'I' else if c == 'ſ' then 'S' else c.toUpper

/-- How much is reported. -/
def logLevel (s : Settings) : Except Fault LogLevel :=
  match s.verbosity with
  | .text name =>
      match LogLevel.ofName? (name.map capital) with
      | some level => .ok level
      | none => .error (.setting (.verbosity (Text.quoted name)))
  | _ => .error (.setting .noAttribute)

/-! ## Taking over settings -/

/-- Take over one value, by section and key. -/
def set (s : Settings) (group key : String) (v : Datum) : Except Fault Settings :=
  match group, key with
  | "target", "ptr_size" => .ok { s with ptrSize := v }
  | "target", "endianness" => .ok { s with endianness := v }
  | "choice", "address_strategy" => .ok { s with strategy := v }
  | "choice", "seed" => .ok { s with seed := v }
  | "choice", "solver_timeout_ms" => .ok { s with solverTimeoutMs := v }
  | "limits", "max_steps" => do return { s with maxSteps := ← v.toInt }
  | "output", "verbosity" => .ok { s with verbosity := v }
  | "output", "color" => .ok { s with colour := v }
  | "output", "echo_stdout" => .ok { s with echoStdout := v }
  | _, _ => .ok s

/-- Take over what a datum says in one section. -/
def applySection (d : Datum) (group : String) : Settings → List String → Except Fault Settings
  | s, [] => .ok s
  | s, key :: keys => do
      match ← d.item? key with
      | none => applySection d group s keys
      | some v => applySection d group (← s.set group key v) keys

/-- Take over what a datum says in some sections. -/
def applySections (d : Datum) : Settings → List (String × List String) → Except Fault Settings
  | s, [] => .ok s
  | s, (group, keys) :: rest => do
      match ← d.item? group with
      | none => applySections d s rest
      | some said => applySections d (← applySection said group s keys) rest

/-- Take over what a datum says, section by section in the order in which they are written. -/
def apply (s : Settings) (d : Datum) : Except Fault Settings :=
  applySections d s (s.sections.map fun (group, keys) => (group, keys.map (·.1)))

/-! ## Writing settings -/

/-- One section of a settings file. -/
def sectionText (group : String) (keys : List (String × Datum)) : String :=
  let lines := keys.filterMap fun (key, v) => v.written?.map (key ++ " = " ++ ·)
  String.join ((("[tool.ubspectre." ++ group ++ "]") :: lines).map (· ++ "\n"))

/-- A settings file that says what the settings are. -/
def written (s : Settings) : String :=
  "\n".intercalate ("[tool.ubspectre]\n" :: s.sections.map fun (group, keys) =>
    sectionText group keys)

end Settings

end AbstractMachine
