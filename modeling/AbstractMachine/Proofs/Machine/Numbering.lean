/-
# AbstractMachine.Proofs.Machine.Numbering — the numbers of variants, and the type that they come with

The discriminant of an enum comes with a type that stands in the enum beside its variants, and
nothing compares the two. A tagged enum names the signed integers of the width of a pointer, however
many variants it has. So the number of a variant is an integer of its type if it is less than half
of what as many bytes can tell apart, and is none otherwise; the type of the tag has no say in this.

What comes with the right type has bytes and can be put into a local of that type (`Suits`). What
does not is a defect to encode and undefined to put there (`Unsuited`).
-/
import AbstractMachine.Proofs.Layout.Tags
import AbstractMachine.Proofs.Machine.Faithful
import AbstractMachine.Proofs.Machine.Lens
import AbstractMachine.Proofs.Machine.Reinterpretation

namespace AbstractMachine

variable {target : Target}

/-- The signed integers of the width of a pointer hold the numbers below the weight of the sign bit. -/
theorem IntTy.canRepresent_isize (width : 1 ≤ target.ptrSize) (i : Nat) :
    (IntTy.isize target).canRepresent i = .ok (decide (i < 2 ^ (8 * target.ptrSize.toNat - 1))) := by
  have half : (1 : Int) <<< (8 * target.ptrSize.toNat - 1) =
      ((2 ^ (8 * target.ptrSize.toNat - 1) : Nat) : Int) := by
    rw [one_shiftLeft_natCast, Nat.one_shiftLeft]
  rw [IntTy.canRepresent_eq (t := .isize target) width]
  simp only [low, high, isize, if_true, half, Except.ok.injEq, decide_eq_decide]
  omega

theorem EnumTy.tree_of_tagged {payloads : List (List Ty)} {tag : IntTy} {e : EnumTy}
    (h : EnumTy.tagged target payloads tag = .ok e) :
    e.discriminator = tagDiscriminator tag payloads.length ∧
      e.discriminantTy = .int (.isize target) := by
  simp only [EnumTy.tagged, bind_eq_ok_iff, pure, Except.pure, Except.ok.injEq] at h
  obtain ⟨_, -, _, -, rfl⟩ := h
  exact ⟨rfl, rfl⟩

theorem Memory.typedStore_of_illFormed {m : Memory} {p : Pointer} {v : Value} {place : PlaceTy}
    (h : place.ty.wellFormed m.target v = .ok false) :
    m.typedStore p v place = .error (.undefined (.invalidStore place.ty)) := by
  simp only [typedStore, h, bind, Except.bind, require_false]

namespace Machine

variable {m n : Machine} {e : ValueExpr} {v : Value} {ty : Ty}

/-! ## Values and the types that come with them -/

/-- An expression yields a value of the type that comes with it: the value has bytes, and every live
local of the innermost frame that is declared with the type takes it. -/
structure Suits (target : Target) (m : Machine) (e : ValueExpr) (v : Value) (ty : Ty) : Prop where
  wellFormed : ty.wellFormed target v = .ok true
  encodes : ∃ data, ty.encode target v = .ok data
  assigns : ∀ {f rest x q align}, m.stack = f :: rest → f.locals.find? x = some q →
    f.localTy x = .ok ⟨ty, align⟩ → ∃ m', execute (.assign (.var x) e) m = (.ok (), m')

/-- An expression yields a value that is none of the type that comes with it: to encode it is a
defect, and to put it into a local of the type is undefined. -/
structure Unsuited (target : Target) (m : Machine) (e : ValueExpr) (v : Value) (ty : Ty) : Prop where
  illFormed : ty.wellFormed target v = .ok false
  defect : ty.encode target v = .error (.defect (.illFormed v ty))
  undefined : ∀ {f rest x q align}, m.stack = f :: rest → f.locals.find? x = some q →
    f.localTy x = .ok ⟨ty, align⟩ →
    (execute (.assign (.var x) e) m).1 = .error (.undefined (.invalidStore ty))

section Assigning

variable {program : Program} {chooser : Chooser} {predictor : Predictor}
  (h : Reachable program target chooser predictor m) (run : evalValue e m = (.ok (v, ty), n))

include h run

/-- An assignment to a live local of the innermost frame is a store at the type of the local, in the
memory that evaluating the expression leaves. -/
theorem execute_assign_var {f : Frame} {rest : List Frame} {x : String} {q : Pointer} {place : PlaceTy}
    (stack : m.stack = f :: rest) (living : f.locals.find? x = some q)
    (declared : f.localTy x = .ok place) :
    execute (.assign (.var x) e) m = onStore (Store.typedStore q v place) n ∧
      n.store.memory.target = target ∧ n.store.memory.Laid ∧
      ∃ a, Houses n.store.memory f x q place a := by
  have outline := outline_of_evalValue h.housed.numbered run
  have same := memory_outline outline
  have stack' : n.stack = f :: rest := (congrArg Machine.stack outline).trans stack
  have housed := h.housed.of_outline_eq same
  rw [stack] at housed
  obtain ⟨place', a, house⟩ := housed.houses (hasLocal_zero_iff.2 ⟨rfl, living⟩)
  obtain rfl := Except.ok.inj (house.declared.symm.trans declared)
  have found : evalPlace (.var x) n = (.ok (q, place'), n) := by
    rw [evalPlace, localPlace, Action.apply_bind_of_ok (frame_eq_ok_iff.2 ⟨rfl, rest, stack'⟩)]
    simp only [living, declared]
    rfl
  refine ⟨?_, ?_, h.laid.of_outline_eq same, a, house⟩
  · rw [execute, Action.apply_bind_of_ok run]
    exact Action.apply_bind_of_ok found _
  · exact (Memory.target_of_outline_eq same).trans h.target_eq

/-- A well-formed value suits its type, if the layout of the type keeps its parts inside and its tags
can be written. -/
theorem suits_of_wellFormed (enclosed : ty.Every (Ty.Enclosed target)) (tags : ty.Every Ty.TagsFit)
    (wf : ty.wellFormed target v = .ok true) : Suits target m e v ty where
  wellFormed := wf
  encodes := Ty.exists_encode tags wf
  assigns {f rest x q align} stack living declared := by
    obtain ⟨runs, width, laid, a, house⟩ := execute_assign_var h run stack living declared
    obtain ⟨data, encoded⟩ := Ty.exists_encode tags wf
    -- The local has as many bytes as its type, and so has the value, so they can be written.
    have size : (data.length : Int) = ty.byteSize n.store.memory.target := by
      have length := Ty.length_of_bytes enclosed wf (Ty.encode_eq_ok_iff.1 encoded).2
      have room : (a.contents.length : Int) = ty.byteSize n.store.memory.target := house.size
      rw [width] at room ⊢
      omega
    have loaded : n.store.memory.load q data.length align = .ok a.contents :=
      size ▸ Memory.load_of_houses laid house
    obtain ⟨memory, stored⟩ := Memory.exists_store_of_load loaded
    have typed : n.store.memory.typedStore q v ⟨ty, align⟩ = .ok memory :=
      Memory.typedStore_eq_ok_iff.2 ⟨data, by rwa [width], stored⟩
    exact ⟨_, runs.trans (onStore_change_of_ok typed)⟩

theorem unsuited_of_illFormed (ill : ty.wellFormed target v = .ok false) :
    Unsuited target m e v ty where
  illFormed := ill
  defect := Ty.encode_of_illFormed ill
  undefined {f rest x q align} stack living declared := by
    obtain ⟨runs, width, -⟩ := execute_assign_var h run stack living declared
    have refused : n.store.memory.typedStore q v ⟨ty, align⟩ =
        .error (.undefined (.invalidStore ty)) := Memory.typedStore_of_illFormed (by rwa [width])
    exact congrArg Prod.fst (runs.trans (onStore_change_of_error refused))

end Assigning

/-! ## Discriminants -/

/-- A discriminant is what the decision tree of the enum finds in the bytes of the place. -/
theorem exists_of_evalValue_discriminant {root : PlaceExpr} {a : Value × Ty}
    (run : evalValue (.discriminant root) m = (.ok a, n)) :
    ∃ p e align data d, evalPlace root m = (.ok (p, ⟨.enum e, align⟩), n) ∧
      e.discriminator.decode n.target data = some d ∧ a = (.int d, e.discriminantTy) := by
  rw [evalValue, Action.bind_eq_ok_iff] at run
  obtain ⟨⟨p, ⟨ty, align⟩⟩, n', place, run⟩ := run
  cases ty with
  | enum e =>
      simp only [Action.bind_eq_ok_iff] at run
      obtain ⟨data, n₁, loaded, t, n₂, asked, found⟩ := run
      obtain rfl : n' = n₁ := congrArg Prod.snd loaded
      obtain ⟨rfl, rfl⟩ : n'.target = t ∧ n' = n₂ := by
        obtain ⟨first, second⟩ := Prod.mk.inj asked
        exact ⟨Except.ok.inj first, second⟩
      cases tree : e.discriminator.decode n'.target data with
      | none =>
          rw [tree] at found
          cases found
      | some d =>
          rw [tree] at found
          obtain ⟨rfl, rfl⟩ := Action.pure_eq_ok_iff.1 found
          exact ⟨p, e, align, data, d, place, tree, rfl⟩
  | _ => cases run

/-- In every reachable machine the discriminant of a tagged enum is the number of one of its variants,
with the signed integers of the width of a pointer as its type. It is a value of the type exactly if
it is below the weight of the sign bit, whichever integers the tag can hold. -/
theorem discriminant_of_tagged {program : Program} {chooser : Chooser} {predictor : Predictor}
    (h : Reachable program target chooser predictor m) {payloads : List (List Ty)} {tag : IntTy}
    {e : EnumTy} (built : EnumTy.tagged target payloads tag = .ok e) {root : PlaceExpr} {p : Pointer}
    {align : Int} (place : (evalPlace root m).1 = .ok (p, ⟨.enum e, align⟩))
    (run : evalValue (.discriminant root) m = (.ok (v, ty), n)) :
    ∃ i : Nat, i < payloads.length ∧ v = .int i ∧ ty = .int (.isize target) ∧
      (i < 2 ^ (8 * target.ptrSize.toNat - 1) → Suits target m (.discriminant root) v ty) ∧
      (2 ^ (8 * target.ptrSize.toNat - 1) ≤ i → Unsuited target m (.discriminant root) v ty) := by
  obtain ⟨q, e', align', data, d, place', found, same⟩ := exists_of_evalValue_discriminant run
  cases place.symm.trans (congrArg Prod.fst place')
  obtain ⟨tree, typed⟩ := EnumTy.tree_of_tagged built
  rw [tree, decode_tagDiscriminator_iff] at found
  obtain ⟨-, nonneg, bound⟩ := found
  obtain ⟨i, rfl⟩ := Int.eq_ofNat_of_zero_le nonneg
  rw [typed] at same
  obtain ⟨rfl, rfl⟩ := Prod.mk.inj same
  -- The tree bounds the number by how many variants there are, and only the width of a pointer decides
  -- whether it is an integer of its type.
  have fits := IntTy.canRepresent_isize h.width i
  refine ⟨i, by omega, rfl, rfl, fun low => ?_, fun high => ?_⟩
  · rw [decide_eq_true low] at fits
    exact suits_of_wellFormed h run (.intro ⟨trivial, trivial, trivial, trivial⟩ nofun)
      (.intro trivial nofun) fits
  · rw [decide_eq_false (Nat.not_lt.2 high)] at fits
    exact unsuited_of_illFormed h run fits

/-- The enum of so many variants without fields, and a tag of one byte. -/
def bareVariants (target : Target) (count : Nat) : EnumTy where
  variants := (List.range count).map fun (i : Nat) => ⟨.tuple [] 1, [⟨0, ⟨false, 1⟩, i⟩]⟩
  discriminator := tagDiscriminator ⟨false, 1⟩ count
  discriminantTy := .int (.isize target)
  size := 1

theorem tagged_bareVariants (target : Target) (count : Nat) :
    EnumTy.tagged target (List.replicate count []) ⟨false, 1⟩ = .ok (bareVariants target count) := by
  have widest (n : Nat) : (List.replicate n (1 : Int)).foldl max 1 = 1 := by
    induction n with
    | zero => rfl
    | succ n ih => rwa [List.replicate_succ, List.foldl_cons, max_self]
  have placed : (List.replicate count []).mapM (placeFields target 1) =
      .ok (List.replicate count (([], 1) : List Field × Int)) := by
    rw [mapM_eq_ok_iff]
    induction count with
    | zero => exact .nil
    | succ n ih => exact .cons rfl ih
  have variants : ((List.replicate count (([], 1) : List Field × Int)).zipIdx.map fun x =>
      (⟨.tuple x.1.1 1, [⟨0, ⟨false, 1⟩, (x.2 : Nat)⟩]⟩ : Variant)) =
        (bareVariants target count).variants := by
    apply List.ext_getElem <;> simp [bareVariants]
  have rounded : roundUp 1 (largestAlign [1]) = .ok 1 := rfl
  simp only [EnumTy.tagged, placed, bind, Except.bind, List.map_replicate, widest,
    List.length_replicate, List.flatten_replicate_nil, pure, Except.pure, List.map_nil, rounded]
  exact congrArg (fun variants => Except.ok { bareVariants target count with variants }) variants

/-- The program that makes a local a variant, and puts the number of the variant into another local. -/
def numbering (e : EnumTy) (i : Int) : Program where
  functions := ⟨[("main",
    { oneLocalMain with
      locals := ⟨[("x", ⟨.enum e, 1⟩), ("y", ⟨e.discriminantTy, 1⟩), ("ret", ⟨.tuple [] 0, 1⟩)]⟩
      blocks := ⟨[("start", ⟨[.live "x", .live "y", .setDiscriminant (.var "x") i,
        .assign (.var "y") (.discriminant (.var "x"))], Terminator.ret⟩)]⟩ })]⟩

/-- As many variants as there are numbers of a signed byte that are not negative, and one more. -/
def crowd : EnumTy := bareVariants ⟨1, .little⟩ 129

/-- The machine in which the local is the variant, where a pointer is one byte wide. -/
def numbered (i : Int) : Machine :=
  (step (step (step (boot (fresh (numbering crowd i) ⟨1, .little⟩ inTurn .standard)).2).2).2).2

/-- The variants on both sides of the border can be set. -/
theorem reachable_numbered {i : Int} (h : i ∈ [127, 128]) :
    Reachable (numbering crowd i) ⟨1, .little⟩ inTurn .standard (numbered i) := by
  let start (i : Int) := boot (fresh (numbering crowd i) ⟨1, .little⟩ inTurn .standard)
  have begun : ∀ i ∈ [127, 128], (start i).1.toBool = true := by decide +kernel
  have first : ∀ i ∈ [127, 128], (step (start i).2).1.toBool = true := by decide +kernel
  have second : ∀ i ∈ [127, 128], (step (step (start i).2).2).1.toBool = true := by decide +kernel
  have third : ∀ i ∈ [127, 128], (step (step (step (start i).2).2).2).1.toBool = true := by
    decide +kernel
  exact .next (.next (.next (.begun (eq_ok_of_toBool (begun i h))) (eq_ok_of_toBool (first i h)))
    (eq_ok_of_toBool (second i h))) (eq_ok_of_toBool (third i h))

theorem exists_answer {α β : Type} {x : Except Fault α} {g : α → Option β} {b : β}
    (h : x.toOption.bind g = some b) : ∃ a, x = .ok a ∧ g a = some b := by
  cases x with
  | error f => cases h
  | ok a => exact ⟨a, rfl, h⟩

theorem evalPlace_numbered {i : Int} (h : i ∈ [127, 128]) :
    ∃ p align, (evalPlace (.var "x") (numbered i)).1 = .ok (p, ⟨.enum crowd, align⟩) := by
  have found : ∀ i ∈ [127, 128], (evalPlace (.var "x") (numbered i)).1.toOption.bind
      (fun a => some a.2.ty) = some (.enum crowd) := by decide +kernel
  obtain ⟨⟨p, ⟨ty, align⟩⟩, place, same⟩ := exists_answer (found i h)
  obtain rfl := Option.some.inj same
  exact ⟨p, align, place⟩

/-- The number and the type of an integer. -/
def integer? : Value × Ty → Option (Int × Ty)
  | (.int d, ty) => some (d, ty)
  | _ => none

theorem evalValue_numbered {i : Int} (h : i ∈ [127, 128]) :
    ∃ n, evalValue (.discriminant (.var "x")) (numbered i) =
      (.ok (.int i, .int (.isize ⟨1, .little⟩)), n) := by
  have found : ∀ i ∈ [127, 128],
      (evalValue (.discriminant (.var "x")) (numbered i)).1.toOption.bind integer? =
        some (i, .int (.isize ⟨1, .little⟩)) := by decide +kernel
  obtain ⟨⟨v, ty⟩, run, same⟩ := exists_answer (found i h)
  cases v with
  | int d =>
      cases same
      exact ⟨_, Prod.ext run rfl⟩
  | _ => cases same

/-- The last number that a signed byte holds is a value of its type. -/
theorem discriminant_numbered :
    Reachable (numbering crowd 127) ⟨1, .little⟩ inTurn .standard (numbered 127) ∧
      EnumTy.tagged ⟨1, .little⟩ (List.replicate 129 []) ⟨false, 1⟩ = .ok crowd ∧
      (∃ p align, (evalPlace (.var "x") (numbered 127)).1 = .ok (p, ⟨.enum crowd, align⟩)) ∧
      ∃ n, evalValue (.discriminant (.var "x")) (numbered 127) =
          (.ok (.int 127, .int (.isize ⟨1, .little⟩)), n) ∧
        Suits ⟨1, .little⟩ (numbered 127) (.discriminant (.var "x")) (.int 127)
          (.int (.isize ⟨1, .little⟩)) := by
  have reached := reachable_numbered (i := 127) (by decide)
  have built := tagged_bareVariants ⟨1, .little⟩ 129
  obtain ⟨p, align, place⟩ := evalPlace_numbered (i := 127) (by decide)
  obtain ⟨n, run⟩ := evalValue_numbered (i := 127) (by decide)
  obtain ⟨i, -, same, -, suits, -⟩ := discriminant_of_tagged reached built place run
  obtain rfl : i = 127 := Int.ofNat.inj (Value.int.inj same).symm
  exact ⟨reached, built, ⟨p, align, place⟩, n, run, suits (by decide)⟩

/-- The next number is none, though it is the number of a variant and can be written into the tag. -/
theorem discriminant_beyond_isize :
    IntTy.canRepresent ⟨false, 1⟩ 128 = .ok true ∧
      EnumTy.tagged ⟨1, .little⟩ (List.replicate 129 []) ⟨false, 1⟩ = .ok crowd ∧
      Reachable (numbering crowd 128) ⟨1, .little⟩ inTurn .standard (numbered 128) ∧
      (∃ p align, (evalPlace (.var "x") (numbered 128)).1 = .ok (p, ⟨.enum crowd, align⟩)) ∧
      ∃ n ty, evalValue (.discriminant (.var "x")) (numbered 128) = (.ok (.int 128, ty), n) ∧
        ty.wellFormed ⟨1, .little⟩ (.int 128) = .ok false ∧
        ty.encode ⟨1, .little⟩ (.int 128) = .error (.defect (.illFormed (.int 128) ty)) ∧
        (execute (.assign (.var "y") (.discriminant (.var "x"))) (numbered 128)).1 =
          .error (.undefined (.invalidStore ty)) := by
  have reached := reachable_numbered (i := 128) (by decide)
  obtain ⟨n, run⟩ := evalValue_numbered (i := 128) (by decide)
  have unsuited := unsuited_of_illFormed reached run rfl
  have innermost : ((numbered 128).stack.head?.bind fun f =>
      (f.locals.find? "y").bind fun _ => (f.localTy "y").toOption.bind fun place => some place.ty) =
        some (.int (.isize ⟨1, .little⟩)) := by decide +kernel
  obtain ⟨f, top, found⟩ := Option.bind_eq_some_iff.1 innermost
  obtain ⟨q, living, found⟩ := Option.bind_eq_some_iff.1 found
  obtain ⟨⟨ty, align⟩, declared, same⟩ := exists_answer found
  obtain rfl := Option.some.inj same
  obtain ⟨rest, stack⟩ := List.head?_eq_some_iff.1 top
  exact ⟨rfl, tagged_bareVariants ⟨1, .little⟩ 129, reached, evalPlace_numbered (i := 128) (by decide),
    n, _, run, unsuited.illFormed, unsuited.defect, unsuited.undefined stack living declared⟩

end Machine

end AbstractMachine
