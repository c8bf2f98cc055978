/-
# AbstractMachine.Proofs.Noninterference.Evaluation — expressions that cannot observe addresses

A blind expression yields the same value in twin machines, and a blind place is found at twin
pointers. Values hold no pointers that a machine made: what is loaded has a type without pointers,
and what an operator yields is no pointer. The one exception is a constant that is written as an
address. It is the same in both machines, though what lies there is not, so the lemma on values
tells it apart.

A projection stays inside its place because types are inward, which is why it is judged alike in
both machines.
-/
import AbstractMachine.Proofs.Noninterference.Lockstep
import AbstractMachine.Proofs.Representation.Formers

namespace AbstractMachine

variable {target : Target} {W : List Site}

/-! ## Values without pointers -/

/-- What bytes stand for at a type that is not that of a pointer is no pointer. -/
theorem Ty.plain_of_decode {ty : Ty} {data : List AbsByte} {v : Value} (h : ¬ty.IsPtr)
    (decoded : ty.decode target data = .ok (some v)) : v.Plain := by
  cases ty with
  | ptr t => exact absurd trivial h
  | bool =>
      obtain ⟨_, -, rfl⟩ := decode_bool_iff.1 decoded
      exact nofun
  | int t =>
      obtain ⟨_, -, rfl⟩ := decode_int_iff.1 decoded
      exact nofun
  | tuple fields size =>
      obtain ⟨-, _, rfl, -⟩ := decode_tuple_iff.1 decoded
      exact nofun
  | array elem count =>
      obtain ⟨-, _, rfl, -⟩ := decode_array_iff.1 decoded
      exact nofun
  | union u =>
      obtain ⟨-, rfl⟩ := decode_union_iff.1 decoded
      exact nofun
  | enum e =>
      obtain ⟨_, _, _, _, -, -, -, rfl⟩ := decode_enum_iff.1 decoded
      exact nofun

theorem Value.plain_of_transmute {v w : Value} {source ty : Ty} (h : ¬ty.IsPtr)
    (made : v.transmute target source ty = .ok w) : w.Plain := by
  simp only [transmute, bind_eq_ok_iff] at made
  obtain ⟨_, -, data, -, o, decoded, made⟩ := made
  cases o with
  | none => cases made
  | some u =>
      obtain rfl := Except.ok.inj made
      exact Ty.plain_of_decode h decoded

theorem RelOp.plain_of_eval {op : RelOp} {l r v : Value} {ty : Ty} (h : op.eval l r = .ok (v, ty)) :
    v.Plain := by
  obtain ⟨x, -, h⟩ := bind_eq_ok_iff.1 h
  obtain ⟨y, -, h⟩ := bind_eq_ok_iff.1 h
  split at h
  · obtain ⟨rfl, -⟩ := Prod.mk.inj (Except.ok.inj h)
    exact nofun
  · obtain ⟨rfl, -⟩ := Prod.mk.inj (Except.ok.inj h)
    exact nofun

theorem UnionTy.plain_of_ofField {u : UnionTy} {i : Int} {v w : Value}
    (h : u.ofField target i v = .ok w) : w.Plain := by
  simp only [ofField, bind_eq_ok_iff] at h
  obtain ⟨_, -, _, -, h⟩ := h
  obtain rfl := Except.ok.inj h
  exact nofun

namespace Memory

variable {m n : Memory}

theorem retagFields_congr {fields : List Field} {vs : List Value}
    (each : ∀ f ∈ fields, ∀ v, n.retagValue f.ty v = m.retagValue f.ty v) :
    n.retagFields fields vs = m.retagFields fields vs := by
  induction fields generalizing vs with
  | nil => simp only [retagFields]
  | cons f fields ih =>
      obtain ⟨offset, ty⟩ := f
      cases vs with
      | nil => simp only [retagFields]
      | cons v vs =>
          have head := each ⟨offset, ty⟩ List.mem_cons_self v
          have tail (vs : List Value) := @ih vs fun g hg => each g (List.mem_cons_of_mem _ hg)
          simp only [retagFields, head, tail]

theorem retagVariant_congr {d i : Int} {variants : List Variant} {v : Value}
    (each : ∀ x ∈ variants, ∀ v, n.retagValue x.ty v = m.retagValue x.ty v) :
    n.retagVariant d variants i v = m.retagVariant d variants i v := by
  induction variants generalizing i with
  | nil => simp only [retagVariant]
  | cons x variants ih =>
      obtain ⟨ty, tagger⟩ := x
      rw [retagVariant, retagVariant]
      split
      · exact each ⟨ty, tagger⟩ List.mem_cons_self v
      · exact ih fun y hy => each y (List.mem_cons_of_mem _ hy)

/-- To retag a value of a type without pointers, memory is not looked at. -/
theorem retagValue_eq {ty : Ty} (h : ty.All fun t => ¬t.IsPtr) (v : Value) :
    n.retagValue ty v = m.retagValue ty v := by
  induction ty using Ty.induction generalizing v with
  | bool | int _ | union _ _ => cases v <;> simp only [retagValue]
  | ptr t => exact absurd trivial h.here
  | tuple fields size ih =>
      cases v with
      | tuple vs => simp only [retagValue, retagFields_congr fun f hf => ih f hf (h.field hf)]
      | _ => simp only [retagValue]
  | array elem count ih =>
      cases v with
      | tuple vs => simp only [retagValue, funext (ih h.elem)]
      | _ => simp only [retagValue]
  | enum e ih _ =>
      cases v with
      | variant d v =>
          have payload := retagVariant_congr (d := d) (i := d) (v := v) fun x hx =>
            ih x hx (h.payload hx)
          obtain ⟨variants, discriminator, discriminantTy, size⟩ := e
          simp only [retagValue, payload]
      | _ => simp only [retagValue]

end Memory

/-! ## Places -/

/-- A field lies between the ends of what it is a field of. -/
theorem Ty.within_of_fieldAt {ty : Ty} (h : ty.FieldsWithin target) {i : Int} {f : Field}
    (found : ty.fieldAt i = .ok f) : (f.extent target).Within (ty.byteSize target) := by
  cases ty with
  | tuple fields size =>
      obtain ⟨n, -, found⟩ := elementAt_eq_ok_iff.1 found
      exact h f (List.mem_of_getElem? found)
  | union u =>
      obtain ⟨n, -, found⟩ := elementAt_eq_ok_iff.1 found
      exact h f (List.mem_of_getElem? found)
  | _ => cases found

theorem Chunk.Within.between {c : Chunk} {size : Int} (h : c.Within size) :
    Between size c.start ∧ Between size (c.start + c.size) :=
  ⟨.inl h.1, .inl h.2⟩

/-- An element that there is has a number, and lies where the number says. -/
theorem Ty.elementOffset_eq_ok {ty elem : Ty} {i : Value} {distance size : Int}
    (h : ty.elementOffset target i = .ok (distance, elem, size)) :
    ∃ count n, ty = .array elem count ∧ 0 ≤ n ∧ n < count ∧ size = elem.byteSize target ∧
      distance = n * size := by
  unfold Ty.elementOffset at h
  split at h
  · obtain ⟨_, inside, h⟩ := bind_eq_ok_iff.1 h
    obtain ⟨rfl, same⟩ := Prod.mk.inj (Except.ok.inj h)
    obtain ⟨rfl, rfl⟩ := Prod.mk.inj same
    have inside := require_eq_ok_iff.1 inside
    rw [Bool.and_eq_true, decide_eq_true_eq, decide_eq_true_eq] at inside
    exact ⟨_, _, rfl, inside.1, inside.2, rfl, rfl⟩
  · cases h
  · cases h

namespace Machine

/-- The place of a local is found at twin pointers. -/
theorem mirrors_localPlace (name : String) :
    Mirrors target W (PlaceTwin target) (localPlace name) (localPlace name) := by
  refine Mirrors.frame.bind fun W' f g _ twins => ?_
  obtain ⟨left, right⟩ | ⟨p, q, left, right, place, declared, twin⟩ := twins.locals.find? name
  · rw [left, right]
    exact .throw
  · rw [left, right, twins.localTy, declared]
    exact .bindExcept fun place' same => .pure fun _ le => (Except.ok.inj same ▸ twin).mono le

/-! ## Operators -/

/-- An operator on one value yields the same in both machines, and no pointer. -/
theorem mirrors_evalUnary {op : UnaryOp} (blind : op.Blind) (v : Value) (ty : Ty) :
    Mirrors target W (Shared fun a => a.1.Plain) (evalUnary op v ty) (evalUnary op v ty) := by
  cases op with
  | neg | bitNot | cast t => exact .bindExcept fun _ _ => .bindExcept fun _ _ => .answer nofun
  | not => exact .bindExcept fun _ _ => .answer nofun
  | transmute t =>
      exact .bindTarget (.bindExcept fun w made => .answer (Value.plain_of_transmute blind made))
  | expose | fromAddr t => exact absurd blind not_false

/-- An operator on two values yields the same in both machines, and no pointer. -/
theorem mirrors_evalBinary {op : BinaryOp} (blind : op.Blind) (l : Value) (lt : Ty) (r : Value)
    (rt : Ty) :
    Mirrors target W (Shared fun a => a.1.Plain) (evalBinary op l lt r rt)
      (evalBinary op l lt r rt) := by
  cases op with
  | int op =>
      exact .bindExcept fun _ _ => .bindExcept fun _ _ => .bindExcept fun _ _ => .answer nofun
  | rel op => exact .ofExcept fun a computed => RelOp.plain_of_eval computed
  | bool op => exact .bindExcept fun _ _ => .bindExcept fun _ _ => .answer nofun
  | offset inbounds => exact absurd blind not_false

/-! ## Expressions -/

mutual

/-- A blind value expression yields the same in both machines, and no pointer unless it is one. -/
theorem mirrors_evalValue : ∀ (e : ValueExpr) {W : List Site}, e.Blind →
    Mirrors target W (Shared fun a => e.IsAddress ∨ a.1.Plain) (evalValue e) (evalValue e)
  | .constant v ty, W, _ => by
      rw [evalValue]
      -- Nothing is known of the type of a constant, so that it may be an address at any type.
      cases v with
      | ptr p => exact .answer (.inl trivial)
      | _ => exact .answer (.inr nofun)
  | .function name, W, blind => absurd blind not_false
  | .tuple parts ty, W, blind => by
      rw [evalValue]
      refine .bindExcept fun _ _ => (mirrors_evalAll parts blind).bindShared fun vs _ => ?_
      exact .answer (.inr nofun)
  | .union field operand ty, W, blind => by
      rw [evalValue]
      refine (mirrors_evalValue operand blind).bindShared fun (v, _) _ => .bindTarget ?_
      exact .bindExcept fun w made => .answer (.inr (UnionTy.plain_of_ofField made))
  | .variant d payload ty, W, blind => by
      rw [evalValue]
      refine (mirrors_evalValue payload blind).bindShared fun (v, _) _ => ?_
      exact .bindExcept fun _ _ => .answer (.inr nofun)
  | .discriminant p, W, blind => by
      rw [evalValue]
      refine (mirrors_evalPlace p blind).bind ?_
      rintro W' ⟨p, ⟨ty, align⟩⟩ ⟨q, _⟩ - ⟨rfl, inward, twin⟩
      cases ty with
      | enum e =>
          refine (Mirrors.load twin e.size).bindShared fun data _ => .bindTarget ?_
          cases e.discriminator.decode target data with
          | none => exact .throw
          | some d => exact .answer (.inr nofun)
      | _ => exact .throw
  | .load p destructive, W, blind => by
      rw [evalValue]
      refine (mirrors_evalPlace p blind).bind ?_
      rintro W' ⟨p, ⟨ty, align⟩⟩ ⟨q, _⟩ - ⟨rfl, inward, twin⟩
      refine (Mirrors.typedLoad twin ty).bindShared fun v ⟨data, decoded⟩ => ?_
      have plain := Ty.plain_of_decode inward.here.not_ptr decoded
      cases destructive with
      | false => exact .answer (.inr plain)
      | true => exact (Mirrors.deinit twin ty).seq fun _ _ => .answer (.inr plain)
  | .addrOf p ty, W, blind => absurd blind not_false
  | .createRef p ty, W, blind => absurd blind not_false
  | .unary op operand, W, blind => by
      rw [evalValue]
      refine (mirrors_evalValue operand blind.2).bindShared fun (v, ty) _ => ?_
      exact (mirrors_evalUnary blind.1 v ty).mono fun _ _ _ _ same => ⟨same.1, .inr same.2⟩
  | .binary op left right, W, blind => by
      rw [evalValue]
      refine (mirrors_evalValue left blind.2.1).bindShared fun (l, lt) _ => ?_
      refine (mirrors_evalValue right blind.2.2).bindShared fun (r, rt) _ => ?_
      exact (mirrors_evalBinary blind.1 l lt r rt).mono fun _ _ _ _ same => ⟨same.1, .inr same.2⟩

/-- A blind place is found at twin pointers. -/
theorem mirrors_evalPlace : ∀ (p : PlaceExpr) {W : List Site}, p.Blind →
    Mirrors target W (PlaceTwin target) (evalPlace p) (evalPlace p)
  | .var name, W, _ => by
      rw [evalPlace]
      exact mirrors_localPlace name
  | .deref operand place, W, blind => absurd blind not_false
  | .field root i, W, blind => by
      rw [evalPlace]
      refine (mirrors_evalPlace root blind).bind ?_
      rintro W' ⟨p, ⟨ty, align⟩⟩ ⟨q, _⟩ - ⟨rfl, inward, twin⟩
      refine .bindExcept fun f found => ?_
      obtain ⟨start, stop⟩ := (Ty.within_of_fieldAt inward.here.fields_within found).between
      obtain ⟨power, dvd, dvd'⟩ := powerOfTwo_restrictAlign twin.powerOfTwo f.offset
      refine (Mirrors.offsetInBounds twin start stop power dvd dvd').bind fun _ _ _ _ twin => ?_
      exact .pure fun _ le => ⟨rfl, inward.of_fieldAt found, twin.mono le⟩
  | .index root i, W, blind => by
      rw [evalPlace]
      refine (mirrors_evalPlace root blind.1).bind ?_
      rintro W' ⟨p, ⟨ty, align⟩⟩ ⟨q, _⟩ - ⟨rfl, inward, twin⟩
      refine (mirrors_evalValue i blind.2).bindShared fun (i, _) _ => .bindTarget ?_
      refine .bindExcept fun (distance, elem, size) found => ?_
      have elemInward := inward.of_elementOffset found
      obtain ⟨count, n, rfl, nonneg, below, rfl, rfl⟩ := Ty.elementOffset_eq_ok found
      obtain ⟨power, dvd, dvd'⟩ := powerOfTwo_restrictAlign twin.powerOfTwo (elem.byteSize target)
      -- An element ends where the next one would begin.
      have next : n * elem.byteSize target + elem.byteSize target =
          (n + 1) * elem.byteSize target := by
        rw [Int.add_mul, Int.one_mul]
      have start : Between (elem.byteSize target * count) (n * elem.byteSize target) :=
        between_of_index nonneg (Int.le_of_lt below)
      have stop : Between (elem.byteSize target * count)
          (n * elem.byteSize target + elem.byteSize target) := by
        rw [next]
        exact between_of_index (by omega) below
      refine (Mirrors.offsetInBounds twin start stop power dvd (dvd'.mul_left n)).bind ?_
      exact fun _ _ _ _ twin => .pure fun _ le => ⟨rfl, elemInward, twin.mono le⟩
  | .downcast root d, W, blind => by
      rw [evalPlace]
      refine (mirrors_evalPlace root blind).bind ?_
      rintro W' ⟨p, ⟨ty, align⟩⟩ ⟨q, _⟩ - ⟨rfl, inward, twin⟩
      cases ty with
      | enum e =>
          refine .bindExcept fun variant found => .pure fun _ le => ?_
          obtain ⟨n, -, at_⟩ := elementAt_eq_ok_iff.1 found
          -- The payload has all bytes of the enum, so the place is as long as it was.
          have fills : variant.ty.byteSize target = e.size :=
            inward.here.payloads_fill variant (List.mem_of_getElem? at_)
          refine ⟨rfl, inward.of_variantAt found, ?_⟩
          rw [PlaceTy.byteSize, fills]
          exact twin.mono le
      | _ => exact .throw

/-- Blind value expressions yield the same in both machines. -/
theorem mirrors_evalAll : ∀ (es : List ValueExpr) {W : List Site}, ValueExpr.allBlind es →
    Mirrors target W (Shared fun _ => True) (evalAll es) (evalAll es)
  | [], W, _ => by
      rw [evalAll]
      exact .answer trivial
  | e :: es, W, blind => by
      rw [evalAll]
      refine (mirrors_evalValue e blind.1).bindShared fun v _ => ?_
      exact (mirrors_evalAll es blind.2).bindShared fun vs _ => .answer trivial

end

end Machine

end AbstractMachine
