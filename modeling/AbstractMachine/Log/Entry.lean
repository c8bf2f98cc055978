/-
# AbstractMachine.Log.Entry — one line of the log

An entry says how important it is, where it comes from, and at which step of which machine it was
made, if one was running. As text it is a row of parts with blanks between them: the clock, a sign
for the level, the step, the category, and the message. Parts that say nothing are left out: there
is no sign for the quietest level, no step outside a run, and the general category is not named.

Colours are escape sequences around a part. Whether they are written is decided by whoever owns the
stream.
-/

namespace AbstractMachine

/-- How much is reported. -/
inductive LogLevel where
  | quiet
  | normal
  | verbose
  | debug
  | trace
  deriving DecidableEq

namespace LogLevel

/-- The levels from the quietest on. -/
def all : List LogLevel := [quiet, normal, verbose, debug, trace]

/-- The place of a level, the quietest being zero. -/
def rank : LogLevel → Nat
  | quiet => 0
  | normal => 1
  | verbose => 2
  | debug => 3
  | trace => 4

/-- The name of a level, in upper case. -/
def name : LogLevel → String
  | quiet => "QUIET"
  | normal => "NORMAL"
  | verbose => "VERBOSE"
  | debug => "DEBUG"
  | trace => "TRACE"

/-- The level of a name in upper case. -/
def ofName? (s : String) : Option LogLevel :=
  all.find? (·.name == s)

/-- The level at which a word logs: to inform is the normal level. -/
def ofWord? (s : String) : Option LogLevel :=
  [("info", normal), ("verbose", verbose), ("debug", debug), ("trace", trace)].lookup s

theorem ofName?_name (l : LogLevel) : ofName? l.name = some l := by
  cases l <;> rfl

end LogLevel

/-- The colours of the log. -/
inductive Colour where
  | red
  | yellow
  | blue
  | magenta
  | cyan
  | gray
  deriving DecidableEq

/-- The number of a colour in an escape sequence. -/
def Colour.code : Colour → String
  | red => "31"
  | yellow => "33"
  | blue => "34"
  | magenta => "35"
  | cyan => "36"
  | gray => "90"

/-- A text in a colour, if colours are on. -/
def paint (text : String) (colour : Colour) (on : Bool) : String :=
  if on then "\x1b[" ++ colour.code ++ "m" ++ text ++ "\x1b[0m" else text

/-- Whether a stream takes colours: it has to be a terminal, and nobody may have asked for none. -/
def takesColour (isTerminal refused : Bool) : Bool :=
  !refused && isTerminal

/-- The sign of a level, and its colour. -/
def LogLevel.sign : LogLevel → Option (String × Option Colour)
  | quiet => none
  | normal => some ("•", none)
  | verbose => some ("→", some .blue)
  | debug => some ("⚙", some .magenta)
  | trace => some ("⋯", some .gray)

/-- The categories that the machine's own entries have. -/
inductive LogCategory where
  | general
  | machine
  | memory
  | casts
  | timing
  | relayed
  deriving DecidableEq

/-- The name of a category. -/
def LogCategory.name : LogCategory → String
  | general => "general"
  | machine => "machine"
  | memory => "memory"
  | casts => "intptrcast"
  | timing => "timing"
  | relayed => "python"

/-- One event in the log. -/
structure LogEntry where
  level : LogLevel
  message : String
  /-- The name of a category; besides the machine's own, any will do. -/
  category : String := LogCategory.general.name
  /-- The step that the machine was in. -/
  step : Option Int := none
  deriving DecidableEq

namespace LogEntry

/-- The parts of an entry as text. -/
def parts (e : LogEntry) (colour : Bool) (clock : Option String) : List String :=
  (clock.map (paint · .gray colour)).toList
    ++ (e.level.sign.map fun (sign, c) => c.elim sign (paint sign · colour)).toList
    ++ (e.step.map fun n => paint ("#" ++ toString n) .gray colour).toList
    ++ (if e.category = LogCategory.general.name then []
        else [paint ("[" ++ e.category ++ "]") .cyan colour])
    ++ [e.message]

/-- An entry as text, with the clock in front if one is given. -/
def format (e : LogEntry) (colour : Bool) (clock : Option String) : String :=
  " ".intercalate (e.parts colour clock)

end LogEntry

end AbstractMachine
