/-
# AbstractMachine.Proofs.Discriminant — walking a decision tree over bytes

A walk reads an integer at every branch and goes on with one of the subtrees, which `childFor` picks
by that integer alone. So two byte lists that read the same integers are walked along one path. More
defined bytes read the integers that less defined ones do, and a walk that finds a variant in the
latter finds the same in the former (`decode_of_leAll`). What a walk ends with is a leaf of the tree.
-/
import AbstractMachine.Proofs.Soundness
import AbstractMachine.Proofs.Representation.Scalars

namespace AbstractMachine

namespace Discriminator

/-! ## Induction -/

section Induction

set_option linter.unusedSectionVars false

variable {motive : Discriminator → Prop} (known : ∀ d, motive (.known d)) (invalid : motive .invalid)
  (branch : ∀ offset ty children fallback, (∀ b ∈ children, motive b.next) → motive fallback →
    motive (.branch offset ty children fallback))

include known invalid branch

mutual

/-- To show something of all decision trees, show it of a branch from its subtrees. -/
theorem induction : ∀ tree : Discriminator, motive tree
  | .known d => known d
  | .invalid => invalid
  | .branch offset ty children fallback =>
      branch offset ty children fallback (induction_children children) (induction fallback)

theorem induction_children : ∀ children : List Branch, ∀ b ∈ children, motive b.next
  | [], _, h => nomatch h
  | ⟨_, _, next⟩ :: children, b, h => by
      rcases List.mem_cons.1 h with rfl | h
      · exact induction next
      · exact induction_children children b h

end

end Induction

/-! ## The path of a walk -/

/-- The subtree that a branch goes on with after reading an integer. -/
def childFor (children : List Branch) (fallback : Discriminator) (n : Int) : Discriminator :=
  match children.find? fun b => decide (b.start ≤ n ∧ n < b.stop) with
  | some b => b.next
  | none => fallback

variable {target : Target} {data : List AbsByte} {children : List Branch} {fallback : Discriminator}

theorem childFor_eq (children : List Branch) (fallback : Discriminator) (n : Int) :
    (∃ b ∈ children, childFor children fallback n = b.next) ∨
      childFor children fallback n = fallback := by
  unfold childFor
  split
  · next b found => exact Or.inl ⟨b, List.mem_of_find?_eq_some found, rfl⟩
  · exact Or.inr rfl

theorem decodeChild_eq (n : Int) :
    (decodeChild target data n children).getD (fallback.decode target data) =
      (childFor children fallback n).decode target data := by
  induction children with
  | nil => simp [decodeChild, childFor]
  | cons b children ih =>
      obtain ⟨start, stop, next⟩ := b
      rw [decodeChild]
      by_cases here : start ≤ n ∧ n < stop
      · simp [childFor, here]
      · rw [if_neg here, ih]
        simp [childFor, here]

/-- A walk at a branch is a walk at the subtree that the integer read there picks. -/
theorem decode_branch {offset : Int} {ty : IntTy} :
    (branch offset ty children fallback).decode target data =
      (ty.decode target (Slice.read data offset (offset + ty.size))).bind fun n =>
        (childFor children fallback n).decode target data := by
  rw [Discriminator.decode]
  split
  · next none => rw [none]; rfl
  · next n some => rw [some, decodeChild_eq]; rfl

theorem leaf_of_decode {tree : Discriminator} {d : Int} (h : tree.decode target data = some d) :
    tree.Leaf d := by
  induction tree using Discriminator.induction with
  | known e =>
      obtain rfl : e = d := by simpa [Discriminator.decode] using h
      exact .known
  | invalid => simp [Discriminator.decode] at h
  | branch offset ty children fallback inChild inFallback =>
      rw [decode_branch, Option.bind_eq_some_iff] at h
      obtain ⟨n, _, found⟩ := h
      rcases childFor_eq children fallback n with ⟨b, hb, same⟩ | same
      · exact .child hb (inChild b hb (same ▸ found))
      · exact .fallback (inFallback (same ▸ found))

/-- A variant found in bytes is found in all more defined ones. -/
theorem decode_of_leAll {tree : Discriminator} {d : Int} {more : List AbsByte}
    (le : AbsByte.leAll data more = true) (h : tree.decode target data = some d) :
    tree.decode target more = some d := by
  induction tree using Discriminator.induction with
  | known e => exact h
  | invalid => exact h
  | branch offset ty children fallback inChild inFallback =>
      rw [decode_branch, Option.bind_eq_some_iff] at h ⊢
      obtain ⟨n, read, found⟩ := h
      refine ⟨n, IntTy.decode_of_leAll (AbsByte.leAll_read _ _ le) read, ?_⟩
      rcases childFor_eq children fallback n with ⟨b, hb, same⟩ | same
      · rw [same] at found ⊢
        exact inChild b hb found
      · rw [same] at found ⊢
        exact inFallback found

end Discriminator

end AbstractMachine
