/-
# AbstractMachine.Proofs.Machine.Written — where the type of a value comes from

The type that comes with a value was written by someone: it stands in the expression, or a local was
declared with a type that it is part of, or a pointer was followed to a place of such a type. The
rest are types of scalars, which operators yield. So if all that a program is written with and all
that its locals are declared with have sound layouts, every value comes with a type that has one
(`answers_evalValue`), whatever the value is.
-/
import AbstractMachine.Proofs.Machine.Typing

namespace AbstractMachine

/-! ## What is written -/

/-- The type of the place to which a pointer is followed, where a chain of projections begins with
one. -/
def PlaceExpr.pointee? : PlaceExpr → Option Ty
  | .var _ => none
  | .deref _ place => some place.ty
  | .field root _ => root.pointee?
  | .index root _ => root.pointee?
  | .downcast root _ => root.pointee?

/-- The types that a value expression is written with, or the place that it reads. -/
def ValueExpr.types : ValueExpr → List Ty
  | .constant _ ty => [ty]
  | .function _ => []
  | .tuple _ ty => [ty]
  | .union _ _ ty => [.union ty]
  | .variant _ _ ty => [.enum ty]
  | .discriminant place => place.pointee?.toList
  | .load place _ => place.pointee?.toList
  | .addrOf _ ty => [ty]
  | .createRef _ ty => [ty]
  | .unary op _ => op.ty?.toList
  | .binary _ _ _ => []

/-- The part of the language in which types are as said. -/
def Fragment.written (P : Ty → Prop) : Fragment where
  value e := ∀ ty ∈ e.types, P ty

namespace Ty

variable {target : Target}

theorem all_sound_bool : Ty.bool.All (Sound target) :=
  .of_parts_eq_nil rfl sound_bool

theorem all_sound_int {t : IntTy} : (Ty.int t).All (Sound target) :=
  .of_parts_eq_nil rfl sound_int

theorem all_sound_ptr {t : PtrTy} : (Ty.ptr t).All (Sound target) :=
  .of_parts_eq_nil rfl sound_ptr

end Ty

namespace Machine

variable {target : Target} {m : Machine} {α β : Type} {v l r : Value} {ty lt rt : Ty}

/-! ## Answers -/

/-- If an action succeeds on a machine, its answer is as said. -/
def Answers (m : Machine) (x : Action Machine α) (V : α → Prop) : Prop :=
  ∀ ⦃a m'⦄, x m = (.ok a, m') → V a

namespace Answers

variable {x : Action Machine α} {f : α → Action Machine β} {V : α → Prop} {W : β → Prop}

theorem pure {a : α} (h : V a) : Answers m (Pure.pure a) V := by
  intro b n run
  obtain ⟨rfl, -⟩ := Action.pure_eq_ok_iff.1 run
  exact h

theorem throw {e : Fault} : Answers m (MonadExcept.throw e) V := nofun

theorem bind (hx : Answers m x V) (hf : ∀ a n, V a → Answers n (f a) W) :
    Answers m (x >>= f) W := by
  intro b n run
  obtain ⟨a, t, first, second⟩ := Action.bind_eq_ok_iff.1 run
  exact hf a t (hx first) second

/-- What the first action answers does not matter. -/
theorem later (hf : ∀ a n, Answers n (f a) W) : Answers m (x >>= f) W :=
  bind (V := fun _ => True) (fun _ _ _ => trivial) fun a n _ => hf a n

theorem ofExcept {e : Except Fault α} (h : ∀ a, e = .ok a → V a) :
    Answers m (Action.ofExcept e) V := by
  intro a n run
  exact h a (Action.ofExcept_eq_iff.1 run).1

end Answers

/-! ## What comes with a value -/

/-- The type that comes with an answer has a sound layout, with all its parts. -/
def SoundTy (target : Target) (a : Value × Ty) : Prop :=
  a.2.All (Ty.Sound target)

/-- A place is of a type that has a sound layout, with all its parts. -/
def SoundPlace (target : Target) (a : Pointer × PlaceTy) : Prop :=
  a.2.ty.All (Ty.Sound target)

/-- The locals of all frames are declared with types whose layouts are sound. -/
def Declares (target : Target) (m : Machine) : Prop :=
  ∀ f ∈ m.stack, ∀ name place, f.localTy name = .ok place → place.ty.All (Ty.Sound target)

/-- A place is of a type that was written, or declared, or of a part of such a type. -/
theorem answers_evalPlace (declares : m.Declares target) : ∀ e : PlaceExpr,
    (∀ ty ∈ e.pointee?, ty.All (Ty.Sound target)) → Answers m (evalPlace e) (SoundPlace target)
  | .var name, _ => by
      rw [evalPlace]
      have top : Answers m frame fun f => f ∈ m.stack := by
        intro f n run
        obtain ⟨-, rest, stack⟩ := frame_eq_ok_iff.1 run
        exact stack ▸ List.mem_cons_self
      refine top.bind fun f n hf => ?_
      cases f.locals.find? name with
      | none => exact .throw
      | some p =>
          have declared : Answers n (Action.ofExcept (f.localTy name)) fun place =>
              place.ty.All (Ty.Sound target) := .ofExcept fun place => declares f hf name place
          exact declared.bind fun place n sound => .pure sound
  | .deref operand place, sound => by
      rw [evalPlace]
      refine .later ?_
      rintro ⟨v, _⟩ n
      cases v with
      | ptr p => exact .pure (sound _ rfl)
      | _ => exact .throw
  | .field root i, sound => by
      rw [evalPlace]
      refine (answers_evalPlace declares root sound).bind ?_
      rintro ⟨_, ty, _⟩ n placed
      have part : Answers n (Action.ofExcept (ty.fieldAt i)) fun f => f.ty.All (Ty.Sound target) :=
        .ofExcept fun f has => Ty.All.of_fieldAt placed has
      exact part.bind fun f n sound => .later fun q n => .pure sound
  | .index root i, sound => by
      rw [evalPlace]
      refine (answers_evalPlace declares root sound).bind ?_
      rintro ⟨_, ty, _⟩ n placed
      refine .later ?_
      rintro ⟨k, _⟩ n
      refine .later fun width n => ?_
      have part : Answers n (Action.ofExcept (ty.elementOffset width k)) fun a =>
          a.2.1.All (Ty.Sound target) := by
        refine .ofExcept ?_
        rintro ⟨_, _, _⟩ has
        exact Ty.All.of_elementOffset placed has
      refine part.bind ?_
      rintro ⟨_, _, _⟩ n sound
      exact .later fun q n => .pure sound
  | .downcast root d, sound => by
      rw [evalPlace]
      refine (answers_evalPlace declares root sound).bind ?_
      rintro ⟨_, ty, _⟩ n placed
      cases ty with
      | enum e =>
          have part : Answers n (Action.ofExcept (e.variantAt d)) fun variant =>
              variant.ty.All (Ty.Sound target) :=
            .ofExcept fun variant has => Ty.All.of_variantAt placed has
          exact part.bind fun variant n sound => .pure sound
      | _ => exact .throw

/-- An operator on one value yields a scalar, or a value of the type that it is written with. -/
theorem answers_evalUnary (op : UnaryOp) (operand : ty.All (Ty.Sound target))
    (written : ∀ t ∈ op.ty?, t.All (Ty.Sound target)) :
    Answers m (evalUnary op v ty) (SoundTy target) := by
  cases op with
  | neg | bitNot => exact .later fun _ _ => .later fun _ _ => .pure operand
  | not => exact .later fun _ _ => .pure Ty.all_sound_bool
  | cast t => exact .later fun _ _ => .later fun _ _ => .pure (written _ rfl)
  | transmute t => exact .later fun _ _ => .later fun _ _ => .pure (written _ rfl)
  | expose =>
      cases v with
      | ptr p => exact .later fun _ _ => .later fun _ _ => .pure Ty.all_sound_int
      | _ => exact .throw
  | fromAddr t =>
      refine .later fun _ _ => .later fun _ _ => .later fun _ _ => .later fun _ _ => ?_
      exact .later fun _ _ => .later fun _ _ => .later fun _ _ => .pure (written _ rfl)

/-- An operator on two values yields a scalar, or a value of the type of the left one. -/
theorem answers_evalBinary (op : BinaryOp) (left : lt.All (Ty.Sound target)) :
    Answers m (evalBinary op l lt r rt) (SoundTy target) := by
  cases op with
  | int op =>
      exact .later fun _ _ => .later fun _ _ => .later fun _ _ => .pure Ty.all_sound_int
  | rel op =>
      refine .ofExcept fun a computed => ?_
      obtain ⟨_, -, _, -, rfl | rfl⟩ := relOp_eq_ok computed
      · exact Ty.all_sound_int
      · exact Ty.all_sound_bool
  | bool op => exact .later fun _ _ => .later fun _ _ => .pure Ty.all_sound_bool
  | offset inbounds =>
      cases l with
      | ptr p =>
          refine .later fun _ _ => ?_
          cases inbounds with
          | true => exact .later fun _ _ => .pure left
          | false => exact .later fun _ _ => .later fun _ _ => .pure left
      | _ => exact .throw

/-- A value comes with a type that was written, or declared, or is part of such a type, or that of a
scalar. -/
theorem answers_evalValue (declares : m.Declares target) : ∀ e : ValueExpr,
    e.In (.written (Ty.All (Ty.Sound target))) → Answers m (evalValue e) (SoundTy target)
  | .constant v ty, sound => by
      rw [evalValue]
      exact .pure (sound ty List.mem_cons_self)
  | .function name, _ => by
      rw [evalValue]
      refine .later fun m _ => ?_
      cases m.functions.find? name with
      | none => exact .throw
      | some addr => exact .pure Ty.all_sound_ptr
  | .tuple parts ty, sound => by
      rw [evalValue]
      exact .later fun _ _ => .later fun _ _ => .pure (sound.1 ty List.mem_cons_self)
  | .union field operand ty, sound => by
      rw [evalValue]
      have here : (Ty.union ty).All (Ty.Sound target) := sound.1 _ List.mem_cons_self
      exact .later fun _ _ => .later fun _ _ => .later fun _ _ => .pure here
  | .variant d payload ty, sound => by
      rw [evalValue]
      have here : (Ty.enum ty).All (Ty.Sound target) := sound.1 _ List.mem_cons_self
      exact .later fun _ _ => .later fun _ _ => .pure here
  | .discriminant root, sound => by
      rw [evalValue]
      have read : ∀ t ∈ root.pointee?, t.All (Ty.Sound target) := fun t h =>
        sound.1 t (Option.mem_toList.2 h)
      refine (answers_evalPlace declares root read).bind fun ⟨_, ⟨ty, _⟩⟩ n placed => ?_
      cases ty with
      | enum e =>
          refine .later fun data _ => .later fun width _ => ?_
          cases e.discriminator.decode width data with
          | none => exact .throw
          | some d => exact .pure (Ty.All.discriminant placed)
      | _ => exact .throw
  | .load root destructive, sound => by
      rw [evalValue]
      have read : ∀ t ∈ root.pointee?, t.All (Ty.Sound target) := fun t h =>
        sound.1 t (Option.mem_toList.2 h)
      refine (answers_evalPlace declares root read).bind fun ⟨_, place⟩ n placed => ?_
      refine .later fun _ _ => ?_
      cases destructive with
      | false => exact .pure placed
      | true => exact .later fun _ _ => .pure placed
  | .addrOf root ty, sound => by
      rw [evalValue]
      exact .later fun _ _ => .pure (sound.1 ty List.mem_cons_self)
  | .createRef root ty, sound => by
      rw [evalValue]
      refine .later fun _ _ => .later fun _ _ => .later fun _ _ => .later fun _ _ => ?_
      exact .pure (sound.1 ty List.mem_cons_self)
  | .unary op operand, sound => by
      rw [evalValue]
      refine (answers_evalValue declares operand sound.2).bind fun ⟨_, _⟩ n typed => ?_
      exact answers_evalUnary op typed fun t h => sound.1 t (Option.mem_toList.2 h)
  | .binary op left right, sound => by
      rw [evalValue]
      refine (answers_evalValue declares left sound.2.1).bind fun ⟨_, _⟩ n typed => ?_
      exact .later fun _ _ => answers_evalBinary op typed

end Machine

end AbstractMachine
