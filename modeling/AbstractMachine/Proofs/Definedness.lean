/-
# AbstractMachine.Proofs.Definedness — the order on bytes, through slices and overlays

Slices and overlays move bytes about without looking at them, and where they move them to depends
on positions and lengths alone. So whatever they do to two byte lists that are ordered, they do in
step, and the results are ordered too (`leAll_read`, `leAll_overlay`, `leAll_overlayAll`). No layout
is assumed for this: offsets may be negative, and pieces may hide each other or run past the end.

Bytes that are all initialised lose nothing but provenance by going down in the order
(`allData?_of_leAll`).
-/
import Mathlib.Data.List.Forall2
import AbstractMachine.Byte
import AbstractMachine.Proofs.Overlay

namespace AbstractMachine

open Slice

theorem provenanceLe_trans {p q r : Option AllocId} (h : provenanceLe p q = true)
    (k : provenanceLe q r = true) : provenanceLe p r = true := by
  rw [provenanceLe_iff] at h k ⊢
  rcases h with none | rfl
  · exact .inl none
  · exact k

namespace AbsByte

/-! ## Byte lists -/

theorem leAll_iff_forall₂ {xs ys : List AbsByte} :
    leAll xs ys = true ↔ List.Forall₂ (fun x y => le x y = true) xs ys := by
  induction xs generalizing ys with
  | nil => cases ys <;> simp [leAll]
  | cons x xs ih => cases ys <;> simp [leAll, ih]

/-- The order on lists, position by position. -/
theorem leAll_iff_getElem? {xs ys : List AbsByte} :
    leAll xs ys = true ↔ xs.length = ys.length ∧
      ∀ (i : Nat) (x y : AbsByte), xs[i]? = some x → ys[i]? = some y → le x y = true := by
  induction xs generalizing ys with
  | nil => cases ys <;> simp [leAll]
  | cons x xs ih =>
      cases ys with
      | nil => simp [leAll]
      | cons y ys =>
          simp only [leAll, Bool.and_eq_true, ih, List.length_cons, Nat.add_right_cancel_iff]
          constructor
          · rintro ⟨head, same, tail⟩
            refine ⟨same, fun i a b ha hb => ?_⟩
            cases i with
            | zero => simp_all
            | succ i => exact tail i a b ha hb
          · rintro ⟨same, all⟩
            exact ⟨all 0 x y rfl rfl, same, fun i a b ha hb => all (i + 1) a b ha hb⟩

variable {xs ys zs as bs : List AbsByte}

theorem le_trans {x y z : AbsByte} (h : le x y = true) (k : le y z = true) : le x z = true := by
  cases x with
  | uninit => exact uninit_le z
  | init a p =>
      cases y with
      | uninit => cases h
      | init b q =>
          cases z with
          | uninit => cases k
          | init c r =>
              simp only [le, Bool.and_eq_true, beq_iff_eq] at h k ⊢
              exact ⟨h.1.trans k.1, provenanceLe_trans h.2 k.2⟩

theorem leAll_trans (h : leAll xs ys = true) (k : leAll ys zs = true) : leAll xs zs = true := by
  rw [leAll_iff_getElem?] at h k ⊢
  refine ⟨h.1.trans k.1, fun i x z hx hz => ?_⟩
  have bound : i < ys.length := h.1 ▸ (List.getElem?_eq_some_iff.1 hx).1
  have middle := List.getElem?_eq_getElem bound
  exact le_trans (h.2 i x _ hx middle) (k.2 i _ z middle hz)

theorem leAll_append (h : leAll xs ys = true) (k : leAll as bs = true) :
    leAll (xs ++ as) (ys ++ bs) = true := by
  rw [leAll_iff_forall₂] at h k ⊢
  exact List.rel_append h k

theorem leAll_take (n : Nat) (h : leAll xs ys = true) :
    leAll (xs.take n) (ys.take n) = true := by
  rw [leAll_iff_forall₂] at h ⊢
  exact List.forall₂_take n h

theorem leAll_drop (n : Nat) (h : leAll xs ys = true) :
    leAll (xs.drop n) (ys.drop n) = true := by
  rw [leAll_iff_forall₂] at h ⊢
  exact List.forall₂_drop n h

theorem leAll_flatten {xss yss : List (List AbsByte)}
    (h : List.Forall₂ (fun xs ys => leAll xs ys = true) xss yss) :
    leAll xss.flatten yss.flatten = true := by
  simp only [leAll_iff_forall₂] at h ⊢
  exact List.rel_flatten h

theorem leAll_read (start stop : Int) (h : leAll xs ys = true) :
    leAll (read xs start stop) (read ys start stop) = true := by
  rw [Slice.read, Slice.read, length_eq_of_leAll h]
  exact leAll_drop _ (leAll_take _ h)

theorem leAll_write (start stop : Int) (h : leAll xs ys = true) (k : leAll as bs = true) :
    leAll (write xs start stop as) (write ys start stop bs) = true := by
  rw [Slice.write, Slice.write, length_eq_of_leAll h]
  exact leAll_append (leAll_append (leAll_take _ h) k) (leAll_drop _ h)

theorem leAll_overlay (start : Int) (h : leAll xs ys = true) (k : leAll as bs = true) :
    leAll (overlay xs start as) (overlay ys start bs) = true := by
  rw [overlay, overlay, length_eq_of_leAll k]
  exact leAll_write start _ h k

/-- The left piece goes where the right one goes, and is at most as defined. -/
def PieceLe (p q : Piece AbsByte) : Prop :=
  p.start = q.start ∧ leAll p.content q.content = true

/-- Laying pieces over a buffer is monotone in all of them at once. -/
theorem leAll_overlayAll {ps qs : List (Piece AbsByte)} (pieces : List.Forall₂ PieceLe ps qs)
    (h : leAll xs ys = true) : leAll (overlayAll ps xs) (overlayAll qs ys) = true := by
  induction pieces generalizing xs ys with
  | nil => exact h
  | @cons p q ps qs first _ ih =>
      rw [overlayAll_cons, overlayAll_cons, first.1]
      exact ih (leAll_overlay q.start h first.2)

/-- Laying over a buffer what is at most as defined as the bytes that another buffer has there keeps
it below that buffer. -/
theorem leAll_overlayAll_of_forall {ps : List (Piece AbsByte)} (h : leAll xs ys = true)
    (pieces : ∀ p ∈ ps, p.extent.Inside ys.length ∧
      leAll p.content (read ys p.start (p.start + p.content.length)) = true) :
    leAll (overlayAll ps xs) ys = true := by
  induction ps generalizing xs with
  | nil => exact h
  | cons p ps ih =>
      obtain ⟨inside, below⟩ := pieces p List.mem_cons_self
      have step := leAll_overlay p.start h below
      rw [overlay_read ys (by omega) inside] at step
      exact ih step fun q hq => pieces q (List.mem_cons_of_mem p hq)

/-- What pieces do to a blank buffer tells whether they keep another one below a given list. -/
theorem leAll_overlayAll_of_blank {ps : List (Piece AbsByte)} {n : Int}
    (inside : ∀ p ∈ ps, p.extent.Inside xs.length) (same : n = xs.length)
    (h : leAll xs ys = true) (tag : leAll (overlayAll ps (blank n)) ys = true) :
    leAll (overlayAll ps xs) ys = true := by
  rw [leAll_iff_getElem?] at h tag ⊢
  refine ⟨by rw [length_overlayAll inside, h.1], fun i x y hx hy => ?_⟩
  by_cases covered : ∃ p ∈ ps, (i : Int) ∈ p.extent
  · refine tag.2 i x y ?_ hy
    rw [← hx]
    exact (getElem?_overlayAll_congr (by simp [same]) inside covered).symm
  · rw [getElem?_overlayAll_of_forall inside fun p hp hi => covered ⟨p, hp, hi⟩] at hx
    exact h.2 i x y hx hy

theorem length_blank_of_nonneg {n : Int} (nonneg : 0 ≤ n) : ((blank n).length : Int) = n := by
  rw [length_blank, Int.toNat_of_nonneg nonneg]

theorem eq_uninit_of_getElem?_blank {n : Int} {i : Nat} {x : AbsByte}
    (h : (blank n)[i]? = some x) : x = uninit := by
  obtain ⟨_, rfl⟩ := List.getElem?_eq_some_iff.1 h
  simp [blank]

/-- Blank bytes are below all bytes. -/
theorem leAll_blank {n : Int} (same : n = ys.length) : leAll (blank n) ys = true := by
  rw [leAll_iff_getElem?]
  refine ⟨by simp [same], fun i x y hx _ => ?_⟩
  rw [eq_uninit_of_getElem?_blank hx, uninit_le]

/-! ## Initialised bytes -/

/-- Bytes that are all initialised stay so, with the same bits, above them. -/
theorem allData?_of_leAll {ds : List UInt8} (h : leAll xs ys = true)
    (init : allData? xs = some ds) : allData? ys = some ds := by
  induction xs generalizing ys ds with
  | nil => cases ys <;> simp_all [leAll]
  | cons x xs ih =>
      cases ys with
      | nil => simp [leAll] at h
      | cons y ys =>
          simp only [leAll, Bool.and_eq_true] at h
          cases x with
          | uninit => simp [allData?] at init
          | init d p =>
              cases y with
              | uninit => simp [le] at h
              | init e q =>
                  simp only [le, Bool.and_eq_true, beq_iff_eq] at h
                  simp only [allData?, Option.map_eq_some_iff] at init
                  obtain ⟨es, hes, rfl⟩ := init
                  rw [allData?, ih h.2 hes, h.1.1]
                  rfl

/-- Bits with the same provenance throughout are ordered as the provenance is. -/
theorem leAll_ofData (ds : List UInt8) {p q : Option AllocId} (h : provenanceLe p q = true) :
    leAll (ofData ds p) (ofData ds q) = true := by
  induction ds with
  | nil => rfl
  | cons d ds ih =>
      simp only [ofData, List.map_cons, leAll, le, beq_self_eq_true, Bool.true_and, h]
      exact ih

/-- The bits of bytes, with a provenance that is below that of each of the bytes, are below them. -/
theorem leAll_ofData_of_allData? {ds : List UInt8} {p : Option AllocId}
    (init : allData? xs = some ds) (h : ∀ x ∈ xs, provenanceLe p x.provenance? = true) :
    leAll (ofData ds p) xs = true := by
  induction xs generalizing ds with
  | nil =>
      obtain rfl : ds = [] := by simpa [allData?] using init.symm
      rfl
  | cons x xs ih =>
      cases x with
      | uninit => simp [allData?] at init
      | init d q =>
          simp only [allData?, Option.map_eq_some_iff] at init
          obtain ⟨es, hes, rfl⟩ := init
          have head := h (.init d q) List.mem_cons_self
          have tail := ih hes fun x hx => h x (List.mem_cons_of_mem _ hx)
          simp only [provenance?] at head
          simp only [ofData, List.map_cons, leAll, le, beq_self_eq_true, Bool.true_and, head]
          exact tail

end AbsByte

end AbstractMachine
