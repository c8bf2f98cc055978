/-
# AbstractMachine.Proofs.Fragment — parts of the language

Some things hold only of programs that do without certain expressions or intrinsics. Such a part of
the language is a `Fragment`: which value expressions may occur, whatever they occur in, and which
intrinsics. A program is in a fragment if all its functions are, and so down to every expression in
every place.
-/
import AbstractMachine.Machine.Run
import AbstractMachine.Proofs.Table

namespace AbstractMachine

/-- What a program may be written with. -/
structure Fragment where
  value : ValueExpr → Prop := fun _ => True
  intrinsic : IntrinsicOp → Prop := fun _ => True

/-- The whole language. -/
def Fragment.full : Fragment := {}

/-! ## Expressions -/

mutual

/-- A value expression is in a fragment, with all value expressions that it is made of. -/
def ValueExpr.In (L : Fragment) : ValueExpr → Prop
  | .constant v ty => L.value (.constant v ty)
  | .function name => L.value (.function name)
  | .tuple parts ty => L.value (.tuple parts ty) ∧ ValueExpr.allIn L parts
  | .union field operand ty => L.value (.union field operand ty) ∧ operand.In L
  | .variant d payload ty => L.value (.variant d payload ty) ∧ payload.In L
  | .discriminant place => L.value (.discriminant place) ∧ place.In L
  | .load place destructive => L.value (.load place destructive) ∧ place.In L
  | .addrOf place ty => L.value (.addrOf place ty) ∧ place.In L
  | .createRef place ty => L.value (.createRef place ty) ∧ place.In L
  | .unary op operand => L.value (.unary op operand) ∧ operand.In L
  | .binary op left right => L.value (.binary op left right) ∧ left.In L ∧ right.In L

/-- A place expression is in a fragment if all value expressions in it are. -/
def PlaceExpr.In (L : Fragment) : PlaceExpr → Prop
  | .var _ => True
  | .deref operand _ => operand.In L
  | .field root _ => root.In L
  | .index root i => root.In L ∧ i.In L
  | .downcast root _ => root.In L

def ValueExpr.allIn (L : Fragment) : List ValueExpr → Prop
  | [] => True
  | e :: es => e.In L ∧ ValueExpr.allIn L es

end

variable {L : Fragment}

theorem ValueExpr.allIn_iff {es : List ValueExpr} : ValueExpr.allIn L es ↔ ∀ e ∈ es, e.In L := by
  induction es with
  | nil => simp [ValueExpr.allIn]
  | cons e es ih => simp [ValueExpr.allIn, ih]

/-! ## Programs -/

/-- The expressions of a statement are in a fragment. -/
def Statement.In (L : Fragment) : Statement → Prop
  | .assign destination source => destination.In L ∧ source.In L
  | .finalize place => place.In L
  | .live _ => True
  | .dead _ => True
  | .setDiscriminant place _ => place.In L
  | .deinit place => place.In L
  | .validate place => place.In L
  | .mention place => place.In L

/-- The expressions and the intrinsic of a terminator are in a fragment. -/
def Terminator.In (L : Fragment) : Terminator → Prop
  | .goto _ => True
  | .ite condition _ _ => condition.In L
  | .switch value _ _ => value.In L
  | .unreachable => True
  | .call callee arguments result _ _ _ =>
      callee.In L ∧ (∀ a ∈ arguments, a.1.In L) ∧ result.In L
  | .ret => True
  | .intrinsic op arguments result _ =>
      L.intrinsic op ∧ (∀ e ∈ arguments, e.In L) ∧ ∀ place ∈ result, place.In L

/-- All of a block is in a fragment. -/
structure Block.In (L : Fragment) (b : Block) : Prop where
  statements : ∀ s ∈ b.statements, s.In L
  terminator : b.terminator.In L

/-- All blocks of a function are in a fragment. -/
def Function.In (L : Fragment) (f : Function) : Prop :=
  ∀ e ∈ f.blocks.entries, e.2.In L

/-- All functions of a program are in a fragment. -/
def Program.In (L : Fragment) (p : Program) : Prop :=
  ∀ e ∈ p.functions.entries, e.2.In L

/-- The block in which a frame stands is one of its function. -/
theorem Machine.mem_blocks_of_currentBlock {f : Frame} {name : String} {block : Block}
    (current : Machine.currentBlock f = .ok (name, block)) :
    (name, block) ∈ f.function.blocks.entries := by
  unfold Machine.currentBlock at current
  cases at_ : f.block with
  | none =>
      rw [at_] at current
      cases current
  | some name =>
      cases found : f.function.blocks.find? name with
      | none => simp [at_, found] at current
      | some b =>
          simp only [at_, found, Except.ok.injEq, Prod.mk.injEq] at current
          obtain ⟨rfl, rfl⟩ := current
          exact Table.mem_entries_of_find? found

theorem Machine.block_in {f : Frame} {name : String} {block : Block} (h : f.function.In L)
    (current : Machine.currentBlock f = .ok (name, block)) : block.In L :=
  h _ (mem_blocks_of_currentBlock current)

/-! ## The whole language -/

mutual

theorem ValueExpr.in_full : ∀ e : ValueExpr, e.In .full
  | .constant _ _ => trivial
  | .function _ => trivial
  | .tuple parts _ => ⟨trivial, ValueExpr.allIn_full parts⟩
  | .union _ operand _ => ⟨trivial, ValueExpr.in_full operand⟩
  | .variant _ payload _ => ⟨trivial, ValueExpr.in_full payload⟩
  | .discriminant place => ⟨trivial, PlaceExpr.in_full place⟩
  | .load place _ => ⟨trivial, PlaceExpr.in_full place⟩
  | .addrOf place _ => ⟨trivial, PlaceExpr.in_full place⟩
  | .createRef place _ => ⟨trivial, PlaceExpr.in_full place⟩
  | .unary _ operand => ⟨trivial, ValueExpr.in_full operand⟩
  | .binary _ left right => ⟨trivial, ValueExpr.in_full left, ValueExpr.in_full right⟩

theorem PlaceExpr.in_full : ∀ p : PlaceExpr, p.In .full
  | .var _ => trivial
  | .deref operand _ => ValueExpr.in_full operand
  | .field root _ => PlaceExpr.in_full root
  | .index root i => ⟨PlaceExpr.in_full root, ValueExpr.in_full i⟩
  | .downcast root _ => PlaceExpr.in_full root

theorem ValueExpr.allIn_full : ∀ es : List ValueExpr, ValueExpr.allIn .full es
  | [] => trivial
  | e :: es => ⟨ValueExpr.in_full e, ValueExpr.allIn_full es⟩

end

/-- Every program is in the whole language. -/
theorem Program.in_full (p : Program) : p.In .full := by
  intro e _ b _
  constructor
  · intro s _
    cases s with
    | assign destination source => exact ⟨destination.in_full, source.in_full⟩
    | finalize place | setDiscriminant place d | deinit place | validate place | mention place =>
        exact place.in_full
    | live name | dead name => trivial
  · cases b.2.terminator with
    | goto block | unreachable | ret => trivial
    | ite condition onTrue onFalse => exact condition.in_full
    | switch value cases fallback => exact value.in_full
    | call callee arguments result resultAbi next convention =>
        exact ⟨callee.in_full, fun a _ => a.1.in_full, result.in_full⟩
    | intrinsic op arguments result next =>
        exact ⟨trivial, fun e _ => e.in_full, fun place _ => place.in_full⟩

end AbstractMachine
