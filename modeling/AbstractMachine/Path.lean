/-
# AbstractMachine.Path — ways through a tree of names

A path is a list of names, to be taken from a root. Two names are special in a tree of directories:
two points are a step back, and a slash is the very top, wherever one stands. Steps back that have
something to go back from can be left out, so that those which are left stand in front and lead out
of the root (`outward`). Nothing is known of what is there but that it is directories.
-/

namespace AbstractMachine

/-- A way through a tree of names. -/
abbrev Path := List String

namespace Path

/-- A path and all above it, the longest first. -/
def upwards (p : Path) : List Path :=
  (List.range (p.length + 1)).reverse.map fun n => p.take n

/-- The path that a text with slashes stands for, without the steps that lead nowhere. -/
def ofText (s : String) : Path :=
  let names := (s.splitOn "/").filter fun name => name ≠ "" ∧ name ≠ "."
  if s.startsWith "/" then "/" :: names else names

/-- A path with slashes; the root is a point. -/
def text (p : Path) : String :=
  if p.isEmpty then "." else "/".intercalate p

/-- The part of a path that leads out of the root. -/
def outward (p : Path) : Path :=
  p.takeWhile fun name => name = ".." || name = "/"

/-- Whether a path leads out of the root, and nowhere from there. -/
def isOutward (p : Path) : Bool := p.outward == p

/-- Where a name leads from a path that has no steps back to spare. -/
def step (p : Path) (name : String) : Path :=
  if name = "/" then [name]
  else if name ≠ ".." then p ++ [name]
  else if p = ["/"] then p
  else if p.isOutward then p ++ [name]
  else p.dropLast

/-- A path without the steps back that can be spared. -/
def resolved (p : Path) : Path := p.foldl step []

/-- A path and all above it that are known, the longest first. -/
def ancestors (p : Path) : List Path :=
  (upwards (p.drop p.outward.length)).map (p.outward ++ ·)

theorem foldl_step {p : Path} (h : ∀ name ∈ p, name ≠ ".." ∧ name ≠ "/") (done : Path) :
    p.foldl step done = done ++ p := by
  induction p generalizing done with
  | nil => simp
  | cons name rest ih =>
      have here := h name (by simp)
      rw [List.foldl_cons, ih fun n hn => h n (by simp [hn])]
      simp [step, here]

/-- A path that only goes on is as short as it can be. -/
theorem resolved_eq_self {p : Path} (h : ∀ name ∈ p, name ≠ ".." ∧ name ≠ "/") :
    p.resolved = p := by
  rw [resolved, foldl_step h, List.nil_append]

/-- Below the root, the known paths above a path are all paths above it. -/
theorem ancestors_eq_upwards {p : Path} (h : p.outward = []) : p.ancestors = p.upwards := by
  simp [ancestors, h]

end Path

end AbstractMachine
