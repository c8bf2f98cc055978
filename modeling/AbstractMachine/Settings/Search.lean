/-
# AbstractMachine.Settings.Search — where settings are found

Settings are looked for in the start directory, then in the one above, and so on; in each directory
three names are tried. A project file that serves other tools as well counts only if it has a
section for this one. If nothing is found on the way up, two names are tried in the home directory.

A file that cannot be read leaves all settings as they are, with a warning; so does a directory. A
file may also be named outright; its path is kept as it was given. Paths are given below the root of
the tree. What lies outside has no such path, and neither has the directory of the root.
-/
import AbstractMachine.FileTree
import AbstractMachine.Settings.Document

namespace AbstractMachine

namespace FileTree

/-- The tree that a file at a path describes, if there is one and it is well-formed. -/
def document? (t : FileTree) (p : Path) : Option (List (String × Datum)) := do
  Document.parse? (← t.contents? p)

end FileTree

namespace Settings

/-- The name of a project file, which other tools share. -/
def projectFile : String := "pyproject.toml"

/-- The names that are tried in each directory. -/
def fileNames : List String := ["ubspectre.toml", ".ubspectre.toml", projectFile]

/-- The names that are tried in the home directory. -/
def homeNames : List String := [".ubspectre.toml", "ubspectre.toml"]

/-- Whether a path is that of a project file. -/
def isProjectFile (p : Path) : Bool := p.getLast? == some projectFile

/-- Whether a project file has a section for this tool. -/
def hasToolSection (t : FileTree) (p : Path) : Except Fault Bool :=
  match (t.document? p).bind (·.lookup "tool") with
  | none => .ok false
  | some tools => tools.holds "ubspectre"

/-- Whether there is a settings file at a path. -/
def counts (t : FileTree) (p : Path) : Except Fault Bool :=
  if !t.hasEntry p then .ok false
  else if isProjectFile p then hasToolSection t p
  else .ok true

/-- The places where settings are looked for, in order. -/
def places (t : FileTree) (start : Path) : List Path :=
  (start.ancestors.flatMap fun directory => fileNames.map (directory ++ [·]))
    ++ homeNames.map (t.home ++ [·])

/-- The settings file for a start directory, if there is one. It has to lie below the root. -/
def findFile (t : FileTree) (start : Path) : Except Fault (Option Path) := do
  let found ← (places t start.resolved).findM? (counts t)
  require (found.all (·.outward.isEmpty)) (.setting .outside)
  return found

/-- Settings, and where they come from. -/
structure Loaded where
  settings : Settings := {}
  file : Option Path := none
  /-- Whether the file could not be read. -/
  warned : Bool := false

/-- The directory of the file that settings come from. The root has none that has a path. -/
def Loaded.directory (l : Loaded) : Except Fault (Option Path) := do
  require (l.file.all fun p => !p.isEmpty && p.head? != some "/") (.setting .outside)
  return l.file.map (·.dropLast)

/-- The section of a file that is meant for this tool, if the file has one. -/
def toolSection? (entries : List (String × Datum)) : Except Fault (Option Datum) :=
  match entries.lookup "tool" with
  | none => .ok none
  | some (.table tools) => .ok (tools.lookup "ubspectre")
  | some _ => .error (.setting .noAttribute)

/-- What a well-formed file says about this tool. A project file says nothing outside its section
for the tool; any other file may have the section, or be it. -/
def relevant (p : Path) (entries : List (String × Datum)) : Except Fault Datum := do
  match ← toolSection? entries with
  | some d => return d
  | none => return .table (if isProjectFile p then [] else entries)

/-- Load what stands at a place, which was given as a path. -/
def loadFrom (t : FileTree) (given place : Path) : Except Fault Loaded :=
  match t.document? place with
  | none => .ok { file := some given, warned := true }
  | some entries => do
      return { settings := ← apply {} (← relevant given entries), file := some given }

/-- Load the file at a path, or else the one that a start directory leads to. Without a file all
settings are as they are. -/
def load (t : FileTree) (explicit : Option Path) (start : Path) : Except Fault Loaded := do
  let file ← explicit.elim (findFile t start) (.ok ∘ some)
  match file.bind fun given => (t.find? given).map (given, ·) with
  | none => return {}
  | some (given, place) => loadFrom t given place

end Settings

end AbstractMachine
