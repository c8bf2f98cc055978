/-
# AbstractMachine.Byte — bytes of abstract memory

A byte is either uninitialised or holds eight bits together with the provenance of the pointer it
is a piece of, if any. An uninitialised byte carries no provenance; the type has no room for one.

Bytes are ordered by *definedness*: uninitialised is below everything, and a byte without
provenance is below the same byte with one. Lists are compared byte by byte, and lists of different
lengths are unrelated.
-/
import AbstractMachine.Identity

namespace AbstractMachine

/-- One byte of memory. -/
inductive AbsByte where
  | uninit
  | init (data : UInt8) (provenance : Option AllocId)
  deriving DecidableEq

namespace AbsByte

/-- The bits of an initialised byte. -/
def data? : AbsByte → Option UInt8
  | uninit => none
  | init d _ => some d

/-- The provenance a byte carries. -/
def provenance? : AbsByte → Option AllocId
  | uninit => none
  | init _ p => p

/-- The same byte without its provenance. -/
def forget : AbsByte → AbsByte
  | uninit => uninit
  | init d _ => init d none

/-- The left byte is at most as defined as the right one. -/
def le : AbsByte → AbsByte → Bool
  | uninit, _ => true
  | init _ _, uninit => false
  | init a p, init b q => a == b && provenanceLe p q

/-- `le`, byte by byte; lists of different lengths are unrelated. -/
def leAll : List AbsByte → List AbsByte → Bool
  | [], [] => true
  | x :: xs, y :: ys => le x y && leAll xs ys
  | _, _ => false

/-- `n` uninitialised bytes; none for a negative count. -/
def blank (n : Int) : List AbsByte :=
  List.replicate n.toNat uninit

/-- Bits turned into bytes that all carry the same provenance. -/
def ofData (data : List UInt8) (provenance : Option AllocId) : List AbsByte :=
  data.map (init · provenance)

/-- The bits of a list of bytes, if all of them are initialised. -/
def allData? : List AbsByte → Option (List UInt8)
  | [] => some []
  | uninit :: _ => none
  | init d _ :: bs => (allData? bs).map (d :: ·)

@[simp] theorem le_refl (b : AbsByte) : le b b = true := by
  cases b <;> simp [le]

@[simp] theorem uninit_le (b : AbsByte) : le uninit b = true := rfl

theorem length_eq_of_leAll : ∀ {xs ys : List AbsByte}, leAll xs ys = true → xs.length = ys.length
  | [], [], _ => rfl
  | _ :: _, _ :: _, h => by
      simp only [leAll, Bool.and_eq_true] at h
      simp [length_eq_of_leAll h.2]
  | [], _ :: _, h => by simp [leAll] at h
  | _ :: _, [], h => by simp [leAll] at h

@[simp] theorem leAll_refl : ∀ bs : List AbsByte, leAll bs bs = true
  | [] => rfl
  | b :: bs => by simp [leAll, leAll_refl bs]

@[simp] theorem length_blank (n : Int) : (blank n).length = n.toNat := by
  simp [blank]

@[simp] theorem length_ofData (data : List UInt8) (p : Option AllocId) :
    (ofData data p).length = data.length := by
  simp [ofData]

@[simp] theorem allData?_ofData (data : List UInt8) (p : Option AllocId) :
    allData? (ofData data p) = some data := by
  induction data with
  | nil => rfl
  | cons d ds ih => simpa [ofData, allData?] using ih

theorem length_of_allData? : ∀ {bs : List AbsByte} {ds : List UInt8},
    allData? bs = some ds → ds.length = bs.length
  | [], ds, h => by simp [allData?] at h; simp [← h]
  | uninit :: _, ds, h => by simp [allData?] at h
  | init d p :: bs, ds, h => by
      simp only [allData?, Option.map_eq_some_iff] at h
      obtain ⟨es, he, rfl⟩ := h
      simp [length_of_allData? he]

end AbsByte

end AbstractMachine
