/-
# AbstractMachine.Ty — the types of the instruction language

Types are finite trees. A type fixes a size in bytes, and a layout: fields and variants lie at
stated offsets, and nothing is implied about the bytes between them. Nothing here says that a
layout makes sense; fields may overlap or run out of range, and the operations on types have to say
what they do then.

Recursion over types goes through lists of fields and variants. `Ty.induction` is the principle
that hides this: to show something of all types, show it of each former from its components.
-/
import AbstractMachine.Target

namespace AbstractMachine

/-- An integer type: signedness, and size in bytes. -/
structure IntTy where
  signed : Bool
  size : Int
  deriving DecidableEq

/-- What a safe pointer has to point to. -/
structure Pointee where
  size : Int
  align : Int
  inhabited : Bool := true
  freeze : Bool := true
  deriving DecidableEq

/-- The pointer types. -/
inductive PtrTy where
  | ref (mutable : Bool) (pointee : Pointee)
  | box (pointee : Pointee)
  | raw
  | fn
  deriving DecidableEq

/-- What a valid pointer of the type has to point to: nothing is asked of a raw pointer, and a
function pointer only has to be non-null. -/
def PtrTy.safePointee : PtrTy → Option Pointee
  | ref _ p => some p
  | box p => some p
  | raw => none
  | fn => some { size := 0, align := 1 }

/-- One write of an enum tag: the value, its type, and where it goes. -/
structure TagWrite where
  offset : Int
  ty : IntTy
  value : Int
  deriving DecidableEq

/-- A range of bytes that a union keeps. -/
structure Chunk where
  start : Int
  size : Int
  deriving DecidableEq

mutual

/-- The decision tree that finds the active variant of an enum in its bytes. A branch reads an
integer and goes on with the first child whose range holds it, else with the fallback. -/
inductive Discriminator where
  | known (discriminant : Int)
  | invalid
  | branch (offset : Int) (valueTy : IntTy) (children : List Branch) (fallback : Discriminator)

/-- A child of a branch, for the integers from `start` up to `stop`. -/
structure Branch where
  start : Int
  stop : Int
  next : Discriminator

end

mutual

/-- The types of the instruction language. -/
inductive Ty where
  | bool
  | int (ty : IntTy)
  | ptr (ty : PtrTy)
  /-- Structs and tuples: fields at offsets, padding elsewhere. -/
  | tuple (fields : List Field) (size : Int)
  | array (elem : Ty) (count : Int)
  | union (ty : UnionTy)
  | enum (ty : EnumTy)

/-- A field of a tuple or union. -/
structure Field where
  offset : Int
  ty : Ty

/-- A union keeps the bytes of its chunks; its fields are views into them. -/
structure UnionTy where
  fields : List Field
  chunks : List Chunk
  size : Int

/-- A variant of an enum: a payload that spans the whole enum, and the writes that mark the variant
as the active one. -/
structure Variant where
  ty : Ty
  tagger : List TagWrite

/-- An enum, its variants numbered by their place in the list. The number of the active one is read
at the type of discriminants; nothing makes that an integer type. -/
structure EnumTy where
  variants : List Variant
  discriminator : Discriminator
  discriminantTy : Ty
  size : Int

end

/-- A type, and the alignment a place of that type is known to have. -/
structure PlaceTy where
  ty : Ty
  align : Int

/-! ## Induction -/

section Induction

set_option linter.unusedSectionVars false

variable {motive : Ty → Prop} (bool : motive .bool) (int : ∀ t, motive (.int t))
  (ptr : ∀ t, motive (.ptr t))
  (tuple : ∀ fields size, (∀ f ∈ fields, motive f.ty) → motive (.tuple fields size))
  (array : ∀ elem count, motive elem → motive (.array elem count))
  (union : ∀ u : UnionTy, (∀ f ∈ u.fields, motive f.ty) → motive (.union u))
  (enum : ∀ e : EnumTy, (∀ v ∈ e.variants, motive v.ty) → motive e.discriminantTy →
    motive (.enum e))

include bool int ptr tuple array union enum

mutual

/-- To show something of all types, show it of each former from its components. -/
theorem Ty.induction : ∀ t : Ty, motive t
  | .bool => bool
  | .int t => int t
  | .ptr t => ptr t
  | .tuple fields size => tuple fields size (Ty.induction_fields fields)
  | .array elem count => array elem count (Ty.induction elem)
  | .union ⟨fields, chunks, size⟩ => union ⟨fields, chunks, size⟩ (Ty.induction_fields fields)
  | .enum ⟨variants, d, dt, size⟩ =>
      enum ⟨variants, d, dt, size⟩ (Ty.induction_variants variants) (Ty.induction dt)

theorem Ty.induction_fields : ∀ fields : List Field, ∀ f ∈ fields, motive f.ty
  | [], _, h => nomatch h
  | ⟨_, t⟩ :: fields, f, h => by
      rcases List.mem_cons.1 h with rfl | h
      · exact Ty.induction t
      · exact Ty.induction_fields fields f h

theorem Ty.induction_variants : ∀ variants : List Variant, ∀ v ∈ variants, motive v.ty
  | [], _, h => nomatch h
  | ⟨t, _⟩ :: variants, v, h => by
      rcases List.mem_cons.1 h with rfl | h
      · exact Ty.induction t
      · exact Ty.induction_variants variants v h

end

end Induction

/-! ## Size and inhabitation -/

/-- The size of a type in bytes. -/
def Ty.byteSize (target : Target) : Ty → Int
  | .bool => 1
  | .int t => t.size
  | .ptr _ => target.ptrSize
  | .tuple _ size => size
  | .array elem count => elem.byteSize target * count
  | .union u => u.size
  | .enum e => e.size

/-- The size of a place in bytes. -/
def PlaceTy.byteSize (target : Target) (p : PlaceTy) : Int :=
  p.ty.byteSize target

mutual

/-- Whether a type has a value, as far as its components tell: a tuple needs all its fields, an
enum one of its variants, and a non-empty array its element. -/
def Ty.inhabited : Ty → Bool
  | .bool => true
  | .int _ => true
  | .ptr _ => true
  | .tuple fields _ => allFieldsInhabited fields
  | .array elem count => count == 0 || elem.inhabited
  | .union _ => true
  | .enum ⟨variants, _, _, _⟩ => someVariantInhabited variants

def allFieldsInhabited : List Field → Bool
  | [] => true
  | ⟨_, ty⟩ :: fields => ty.inhabited && allFieldsInhabited fields

def someVariantInhabited : List Variant → Bool
  | [] => false
  | ⟨ty, _⟩ :: variants => ty.inhabited || someVariantInhabited variants

end

theorem allFieldsInhabited_eq (fields : List Field) :
    allFieldsInhabited fields = fields.all (·.ty.inhabited) := by
  induction fields with
  | nil => rfl
  | cons f fs ih => cases f; simp [allFieldsInhabited, ih]

theorem someVariantInhabited_eq (variants : List Variant) :
    someVariantInhabited variants = variants.any (·.ty.inhabited) := by
  induction variants with
  | nil => rfl
  | cons v vs ih => cases v; simp [someVariantInhabited, ih]

end AbstractMachine
