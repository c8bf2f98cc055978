/-
# AbstractMachine.FileTree — files and directories below a root

A tree holds files with their contents, and directories. What is outside it are directories, about
which no more is known. A path leads somewhere only if every step back in it starts from a
directory.
-/
import AbstractMachine.Path

namespace AbstractMachine

/-- Files with their contents, and directories, below a common root. -/
structure FileTree where
  files : List (Path × String)
  /-- Directories that are there even if they hold no file. -/
  directories : List Path
  /-- The home directory. -/
  home : Path := ["home"]

namespace FileTree

/-- The tree that comes about when a directory and files are made, with all the directories on
their way. Of two files at one place the later one stays. -/
def ofFiles (files : List (Path × String)) (start : Path) : FileTree where
  files := (files.map fun (p, contents) => (p.resolved, contents)).reverse
  directories := (start :: files.map (·.1.dropLast)).flatMap fun p => p.upwards.map Path.resolved

/-- Whether there is a directory at a path. -/
def isDirectory (t : FileTree) (p : Path) : Bool :=
  p.isOutward || (t.home :: t.directories).any p.isPrefixOf

/-- The contents of the file at a path. -/
def contents? (t : FileTree) (p : Path) : Option String :=
  t.files.lookup p

/-- Whether there is a file or directory at a path. -/
def hasEntry (t : FileTree) (p : Path) : Bool :=
  (t.contents? p).isSome || t.isDirectory p

/-- Where a path leads from a place, if every step back starts from a directory. -/
def follow (t : FileTree) (place : Path) : Path → Option Path
  | [] => some place
  | name :: rest =>
      if name = ".." && !t.isDirectory place then none else t.follow (place.step name) rest

/-- The place that a path leads to, if there is a file or directory. -/
def find? (t : FileTree) (p : Path) : Option Path :=
  (t.follow [] p).filter t.hasEntry

/-- The root is a directory. -/
theorem isDirectory_root (t : FileTree) : t.isDirectory [] = true := rfl

/-- A path that only goes on leads to itself. -/
theorem follow_eq_some {t : FileTree} {p : Path} (h : ∀ name ∈ p, name ≠ ".." ∧ name ≠ "/")
    (place : Path) : t.follow place p = some (place ++ p) := by
  induction p generalizing place with
  | nil => simp [follow]
  | cons name rest ih =>
      have here := h name (by simp)
      rw [follow, if_neg (by simp [here]), ih fun n hn => h n (by simp [hn])]
      simp [Path.step, here]

end FileTree

end AbstractMachine
