/-
# AbstractMachine.Settings.Document — settings files as trees of tables

A settings file is read line by line. A line is blank, or it opens a table (`[a.b]`), or it puts a
value at a key of the table that was opened last. Keys are made of letters, digits, underscores and
hyphens, and may be paths of keys joined by points. Values are texts in double quotes without
escapes, integers, and the two truth values. A number sign outside a text begins a comment. No
control character but the tab may stand in a text or a comment.

A file that breaks these rules is malformed as a whole; so is one that opens a table twice, puts two
values at one key, or treats a value as a table. A path of keys makes the tables on its way. They
count as opened as soon as the next table is opened, so that no later line can add to them.
-/
import AbstractMachine.Path
import AbstractMachine.Settings
import AbstractMachine.Table

namespace AbstractMachine

namespace Document

/-! ## Lines -/

/-- What one line says. -/
inductive Line where
  | blank
  | opens (path : Path)
  | assigns (path : Path) (value : Scalar)

/-- Blanks inside a line. -/
def isSpace (c : Char) : Bool := c == ' ' || c == '\t'

/-- The characters that keys are made of. -/
def isKeyChar (c : Char) : Bool := c.isAlphanum || c == '_' || c == '-'

/-- A text without the blanks that it begins with. -/
def skipSpaces (cs : List Char) : List Char := cs.dropWhile isSpace

/-- The characters that no text or comment has: controls other than the tab. -/
def isControl (c : Char) : Bool := (c.toNat < 0x20 && c != '\t') || c.toNat == 0x7F

/-- Whether nothing follows but blanks and a comment. -/
def ends (cs : List Char) : Bool :=
  match skipSpaces cs with
  | [] => true
  | c :: comment => c == '#' && !comment.any isControl

/-- Keys joined by points, up to a closing character, and what follows that. The bound on the number
of keys is met by the length of the text. -/
def readPath (close : Char) : Nat → List Char → Option (List String × List Char)
  | 0, _ => none
  | bound + 1, cs =>
      let cs := skipSpaces cs
      let key := cs.takeWhile isKeyChar
      match key, skipSpaces (cs.dropWhile isKeyChar) with
      | [], _ => none
      | _, '.' :: rest =>
          (readPath close bound rest).map fun (keys, r) => (String.ofList key :: keys, r)
      | _, c :: rest => if c = close then some ([String.ofList key], rest) else none
      | _, [] => none

/-- The bases other than ten in which a number may be written, by their marks. -/
def bases : List (Char × Nat) := [('x', 16), ('o', 8), ('b', 2)]

/-- A decimal number: no zero stands in front of another digit. -/
def readDecimal (word : List Char) : Option Int :=
  let digits := match word with
    | '+' :: rest => rest
    | '-' :: rest => rest
    | _ => word
  match digits with
  | '0' :: _ :: _ => none
  | _ => Text.signed? (Text.digitIn? 10) word

/-- An integer without blanks around it. A zero and a mark in front give the base. -/
def readInteger : List Char → Option Int
  | '0' :: mark :: digits => do
      let base ← bases.lookup mark
      return (← Text.natural? (Text.digitIn? base) base digits : Nat)
  | word => readDecimal word

/-- A value, and what follows it. -/
def readValue (cs : List Char) : Option (Scalar × List Char) :=
  match cs with
  | '"' :: rest =>
      let stops (c : Char) := c == '"' || c == '\\' || isControl c
      let body := rest.takeWhile (!stops ·)
      match rest.dropWhile (!stops ·) with
      | '"' :: after => some (.text (String.ofList body), after)
      | _ => none
  | _ =>
      let stops (c : Char) := isSpace c || c == '#'
      let word := cs.takeWhile (!stops ·)
      let after := cs.dropWhile (!stops ·)
      if word = "true".toList then some (.bool true, after)
      else if word = "false".toList then some (.bool false, after)
      else (readInteger word).map fun n => (.int n, after)

/-- What a line says, if it says anything. -/
def readLine (line : List Char) : Option Line :=
  match skipSpaces line with
  | '[' :: rest => do
      let (path, after) ← readPath ']' rest.length rest
      if ends after then some (.opens path) else none
  | cs =>
      if ends cs then some .blank
      else do
        let (path, rest) ← readPath '=' cs.length cs
        let (value, after) ← readValue (skipSpaces rest)
        if ends after then some (.assigns path value) else none

/-! ## Trees -/

/-- Replace the tree at a key, or put it at the end. -/
def replaceAt (key : String) (d : Datum) (entries : List (String × Datum)) :
    List (String × Datum) :=
  Table.put key d entries

/-- Make sure that there is a table at a path. -/
def openTable : List String → List (String × Datum) → Option (List (String × Datum))
  | [], entries => some entries
  | key :: path, entries =>
      match entries.lookup key with
      | none => (openTable path []).map fun inner => replaceAt key (.table inner) entries
      | some (.table inner) =>
          (openTable path inner).map fun inner => replaceAt key (.table inner) entries
      | some _ => none

/-- Put a value at a path that leads to nothing yet. -/
def assign (v : Scalar) : List String → List (String × Datum) → Option (List (String × Datum))
  | [], _ => none
  | [key], entries =>
      match entries.lookup key with
      | none => some (replaceAt key (.scalar v) entries)
      | some _ => none
  | key :: path, entries =>
      match entries.lookup key with
      | none => (assign v path []).map fun inner => replaceAt key (.table inner) entries
      | some (.table inner) =>
          (assign v path inner).map fun inner => replaceAt key (.table inner) entries
      | some _ => none

/-- What has been read so far. -/
structure Reader where
  root : List (String × Datum) := []
  /-- The table that was opened last. -/
  current : Path := []
  /-- The tables that must not be opened again. -/
  opened : List Path := []
  /-- The tables that paths of keys made since. -/
  pending : List Path := []

namespace Reader

/-- Take over one line. -/
def take (r : Reader) : Line → Option Reader
  | .blank => some r
  | .opens path =>
      let opened := r.pending ++ r.opened
      if opened.contains path then none
      else (openTable path r.root).map fun root =>
        { root, current := path, opened := path :: opened }
  | .assigns path v =>
      let onTheWay := ((Path.upwards path.dropLast).filter (· ≠ [])).map (r.current ++ ·)
      if onTheWay.any r.opened.contains then none
      else (assign v (r.current ++ path) r.root).map fun root =>
        { r with root, pending := onTheWay ++ r.pending }

/-- Take over lines, first to last. -/
def takeAll : Reader → List (List Char) → Option Reader
  | r, [] => some r
  | r, line :: rest => do
      let line ← readLine line
      let r ← r.take line
      takeAll r rest

end Reader

/-- The lines of a text. A carriage return in front of a line feed belongs to the line's end. -/
def lines (s : String) : List (List Char) :=
  ((s.replace "\r\n" "\n").splitOn "\n").map (·.toList)

/-- The tree that a file describes, if it is well-formed. -/
def parse? (s : String) : Option (List (String × Datum)) :=
  (Reader.takeAll {} (lines s)).map (·.root)

end Document

end AbstractMachine
