/-
# AbstractMachine.Proofs.Noninterference.Blind — programs that cannot observe addresses

A program can look at an address where it takes one, follows one, or computes with one, and where a
pointer is part of a value. A program that does none of that is *blind*. It may still name
functions, but only to call them. Nothing is said of its constants, so a blind program may call an
address that it made up, and learn what lies there. That it does not is asked for separately.

There is one more way to look at addresses: to project a place to something outside of it. Whether
such a projection runs out of the allocation or out of the address space depends on where the
allocation is. So the types of a blind program are `Inward`: whatever is part of a type begins and
ends inside it, and where the part has no bytes it does so, too.
-/
import AbstractMachine.Proofs.Parts

namespace AbstractMachine

/-! ## Types -/

/-- A range begins and ends inside a buffer, its ends included. -/
def Chunk.Within (c : Chunk) (size : Int) : Prop :=
  (0 ≤ c.start ∧ c.start ≤ size) ∧ 0 ≤ c.start + c.size ∧ c.start + c.size ≤ size

namespace Ty

/-- A type is that of a pointer. -/
def IsPtr : Ty → Prop
  | .ptr _ => True
  | _ => False

/-- The fields of a tuple or union begin and end inside it. -/
def FieldsWithin (target : Target) : Ty → Prop
  | .tuple fields size => ∀ f ∈ fields, (f.extent target).Within size
  | .union u => ∀ f ∈ u.fields, (f.extent target).Within u.size
  | _ => True

/-- The tags of an enum begin and end inside it. -/
def TagsWithin : Ty → Prop
  | .enum e => ∀ v ∈ e.variants, ∀ w ∈ v.tagger, w.extent.Within e.size
  | _ => True

/-- A type that holds no pointer, and whose parts do not reach out of it. -/
structure Inward (target : Target) (t : Ty) : Prop where
  not_ptr : ¬t.IsPtr
  fields_within : t.FieldsWithin target
  payloads_fill : t.PayloadsFill target
  tags_within : t.TagsWithin

end Ty

/-- A value is no pointer. -/
def Value.Plain (v : Value) : Prop := ∀ p, v ≠ .ptr p

/-! ## Expressions -/

/-- An operator on one value neither takes nor makes a pointer. -/
def UnaryOp.Blind : UnaryOp → Prop
  | .transmute t => ¬t.IsPtr
  | .expose => False
  | .fromAddr _ => False
  | _ => True

/-- An operator on two values moves no pointer. -/
def BinaryOp.Blind : BinaryOp → Prop
  | .offset _ => False
  | _ => True

mutual

/-- A value expression takes no address and names no function. -/
def ValueExpr.Blind : ValueExpr → Prop
  | .constant _ _ => True
  | .function _ => False
  | .tuple parts _ => ValueExpr.allBlind parts
  | .union _ operand _ => operand.Blind
  | .variant _ payload _ => payload.Blind
  | .discriminant place => place.Blind
  | .load place _ => place.Blind
  | .addrOf _ _ => False
  | .createRef _ _ => False
  | .unary op operand => op.Blind ∧ operand.Blind
  | .binary op left right => op.Blind ∧ left.Blind ∧ right.Blind

/-- A place expression follows no pointer. -/
def PlaceExpr.Blind : PlaceExpr → Prop
  | .var _ => True
  | .deref _ _ => False
  | .field root _ => root.Blind
  | .index root i => root.Blind ∧ i.Blind
  | .downcast root _ => root.Blind

def ValueExpr.allBlind : List ValueExpr → Prop
  | [] => True
  | e :: es => e.Blind ∧ ValueExpr.allBlind es

end

theorem ValueExpr.allBlind_iff {es : List ValueExpr} :
    ValueExpr.allBlind es ↔ ∀ e ∈ es, e.Blind := by
  induction es with
  | nil => simp [ValueExpr.allBlind]
  | cons e es ih => simp [ValueExpr.allBlind, ih]

/-- What may be called: a function by its name, and what is blind. -/
def ValueExpr.BlindCallee : ValueExpr → Prop
  | .function _ => True
  | e => e.Blind

/-- An expression is written as an address. -/
def ValueExpr.IsAddress : ValueExpr → Prop
  | .constant (.ptr _) _ => True
  | _ => False

/-! ## Programs -/

/-- The expressions of a statement are blind. -/
def Statement.Blind : Statement → Prop
  | .assign destination source => destination.Blind ∧ source.Blind
  | .finalize place => place.Blind
  | .live _ => True
  | .dead _ => True
  | .setDiscriminant place _ => place.Blind
  | .deinit place => place.Blind
  | .validate place => place.Blind
  | .mention place => place.Blind

/-- An intrinsic neither makes nor frees memory, and has nothing to do with provenance. -/
def IntrinsicOp.Blind : IntrinsicOp → Prop
  | .allocate => False
  | .deallocate => False
  | .exposeProvenance => False
  | .withExposedProvenance => False
  | _ => True

/-- The expressions and the intrinsic of a terminator are blind. -/
def Terminator.Blind : Terminator → Prop
  | .goto _ => True
  | .ite condition _ _ => condition.Blind
  | .switch value _ _ => value.Blind
  | .unreachable => True
  | .call callee arguments result _ _ _ =>
      callee.BlindCallee ∧ (∀ a ∈ arguments, a.1.Blind) ∧ result.Blind
  | .ret => True
  | .intrinsic op arguments result _ =>
      op.Blind ∧ (∀ e ∈ arguments, e.Blind) ∧ ∀ place ∈ result, place.Blind

/-- All of a block is blind. -/
structure Block.Blind (b : Block) : Prop where
  statements : ∀ s ∈ b.statements, s.Blind
  terminator : b.terminator.Blind

/-- All blocks of a function are blind, and its locals are declared with inward types. -/
structure Function.Blind (target : Target) (f : Function) : Prop where
  locals : ∀ d ∈ f.locals.entries, d.2.ty.All (Ty.Inward target)
  blocks : ∀ e ∈ f.blocks.entries, e.2.Blind

/-- All functions of a program are blind. -/
def Program.Blind (target : Target) (p : Program) : Prop :=
  ∀ e ∈ p.functions.entries, e.2.Blind target

/-! ## Calls of addresses -/

/-- A terminator calls an address that is written in it. -/
def Terminator.CallsAddress : Terminator → Prop
  | .call callee _ _ _ _ _ => callee.IsAddress
  | _ => False

/-- Somewhere in a function an address is called. -/
def Function.CallsAddress (f : Function) : Prop :=
  ∃ e ∈ f.blocks.entries, e.2.terminator.CallsAddress

/-- Somewhere in a program an address is called. -/
def Program.CallsAddress (p : Program) : Prop :=
  ∃ e ∈ p.functions.entries, e.2.CallsAddress

end AbstractMachine
