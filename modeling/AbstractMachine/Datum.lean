/-
# AbstractMachine.Datum — values from outside

Settings and keys come from outside as data: values without parts, lists, and tables of entries by
name. They are taken as they are, and judged only by whoever uses them. A datum has two texts. The
*plain* one leaves a text as it is; the *shown* one puts every text in quotes, and is used inside
lists and tables.

Asking a datum for an entry is meaningful for a table. A text and a list can be asked too: they
*hold* a name that occurs in them, but there is nothing to be had under it.
-/
import AbstractMachine.Fault
import AbstractMachine.Text.Integer
import AbstractMachine.Text.Quoted
import AbstractMachine.Text.Sequence

namespace AbstractMachine

/-- A value without parts. -/
inductive Scalar where
  | null
  | bool (b : Bool)
  | int (n : Int)
  | text (s : String)
  deriving DecidableEq

/-- A value from outside. -/
inductive Datum where
  | scalar (value : Scalar)
  | list (items : List Datum)
  | table (entries : List (String × Datum))

instance : Inhabited Datum := ⟨.scalar .null⟩

namespace Scalar

/-- A value as it stands in a message. -/
def plain : Scalar → String
  | null => "None"
  | bool b => Text.truth b
  | int n => toString n
  | text s => s

/-- A value as it stands in a message that quotes texts. -/
def shown : Scalar → String
  | text s => Text.quoted s
  | v => v.plain

/-- Whether a value counts as set. -/
def isSet : Scalar → Bool
  | null => false
  | bool b => b
  | int n => n != 0
  | text s => s != ""

/-- The number that a truth value counts as, or that a value is. -/
def number? : Scalar → Option Int
  | bool b => some (if b then 1 else 0)
  | int n => some n
  | _ => none

/-- What a value counts as when it is compared: a truth value counts as one or zero. -/
def identity (v : Scalar) : Scalar :=
  v.number?.elim v int

/-- A value as a number; a text has to be one. -/
def toInt (v : Scalar) : Except Fault Int :=
  match v, v.number? with
  | _, some n => .ok n
  | text s, none => (Text.integer? s).elim (.error (.setting .notANumber)) .ok
  | _, none => .error (.setting .wrongType)

/-- A value in a settings file; nothing is written for `null`. -/
def written? : Scalar → Option String
  | null => none
  | bool b => some (if b then "true" else "false")
  | int n => some (toString n)
  | text s => some ("\"" ++ s ++ "\"")

theorem identity_identity (v : Scalar) : v.identity.identity = v.identity := by
  cases v <;> rfl

end Scalar

namespace Datum

/-- The datum that is a truth value. -/
@[match_pattern] abbrev bool (b : Bool) : Datum := .scalar (.bool b)

/-- The datum that is a number. -/
@[match_pattern] abbrev int (n : Int) : Datum := .scalar (.int n)

/-- The datum that is a text. -/
@[match_pattern] abbrev text (s : String) : Datum := .scalar (.text s)

/-! ## As text -/

mutual

/-- A datum as it stands in a message that quotes texts: `['a', 1]`, `{'key': None}`. -/
def shown : Datum → String
  | .scalar v => v.shown
  | .list items => Text.listed (shownItems items)
  | .table entries => "\x7b" ++ Text.commaSeparated (shownEntries entries) ++ "\x7d"

/-- The items of a list as text. -/
def shownItems : List Datum → List String
  | [] => []
  | d :: rest => d.shown :: shownItems rest

/-- The entries of a table as text. -/
def shownEntries : List (String × Datum) → List String
  | [] => []
  | (name, d) :: rest => (Text.quoted name ++ ": " ++ d.shown) :: shownEntries rest

end

/-- A datum as it stands in a message. -/
def plain : Datum → String
  | .scalar v => v.plain
  | d => d.shown

/-- A datum in a settings file; nothing is written for `null`. -/
def written? : Datum → Option String
  | .scalar v => v.written?
  | d => some d.shown

/-! ## As a value -/

/-- Whether a datum counts as set. -/
def isSet : Datum → Bool
  | .scalar v => v.isSet
  | .list items => !items.isEmpty
  | .table entries => !entries.isEmpty

/-- The value that a datum without parts is. -/
def atom : Datum → Except Fault Scalar
  | .scalar v => .ok v
  | _ => .error (.setting .wrongType)

/-- The number that a datum without parts counts as, or is. -/
def number? : Datum → Option Int
  | .scalar v => v.number?
  | _ => none

/-- A datum as a number. -/
def toInt (d : Datum) : Except Fault Int := do
  (← d.atom).toInt

/-! ## Entries -/

/-- Whether a word occurs in a text. -/
def occurs (word : List Char) : List Char → Bool
  | [] => word.isEmpty
  | c :: rest => word.isPrefixOf (c :: rest) || occurs word rest

theorem occurs_iff {word cs : List Char} : occurs word cs = true ↔ word <:+: cs := by
  induction cs with
  | nil => simp [occurs]
  | cons c rest ih => simp [occurs, ih, List.infix_cons_iff]

/-- Whether a datum is a given text. -/
def isText (name : String) : Datum → Bool
  | text s => s == name
  | _ => false

/-- Whether a datum holds a name. -/
def holds (name : String) : Datum → Except Fault Bool
  | .table entries => .ok (entries.lookup name).isSome
  | .list items => .ok (items.any (isText name))
  | text s => .ok (occurs name.toList s.toList)
  | .scalar _ => .error (.setting .wrongType)

/-- The entry of a name that a datum may hold. -/
def item? (name : String) (d : Datum) : Except Fault (Option Datum) := do
  if ← d.holds name then
    match d with
    | .table entries => return entries.lookup name
    | _ => throw (.setting .wrongType)
  else return none

theorem item?_table (name : String) (entries : List (String × Datum)) :
    (table entries).item? name = .ok (entries.lookup name) := by
  simp only [item?, holds, bind, Except.bind, pure, Except.pure]
  cases entries.lookup name <;> rfl

end Datum

end AbstractMachine
