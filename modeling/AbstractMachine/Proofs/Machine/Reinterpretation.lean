/-
# AbstractMachine.Proofs.Machine.Reinterpretation — when reinterpreting a value is a defect

To read the bytes of a value at another type, or to lay them into a union, they have to be written
first, and only well-formed values have bytes. Whether a value is one is not looked at where it is
made of an address: the address of a place may be taken, and a pointer moved, at the type of any
pointer, and a reference that is made in this way may be null or misaligned. A store refuses such a
value as undefined behaviour. A transmute and a union do not look, and writing the bytes is a defect.

The rest of a value is right even so. Under the discipline in which pointers of any type are made of
addresses, all that evaluation keeps of a value is its shape (`Formed.keeps`). With
`Ty.wellFormed_iff` this settles both cases: reinterpreting is undefined at worst if the safe pointers
in the value have addresses that they may have, and a defect if not.
-/
import AbstractMachine.Proofs.Machine.Escapes
import AbstractMachine.Proofs.Machine.Typing
import AbstractMachine.Proofs.Machine.Transmutation
import AbstractMachine.Proofs.Representation.Shape

namespace AbstractMachine

variable {target : Target} {s t ty : Ty} {v : Value}

/-! ## The shape of answers -/

/-- Expressions are written with regular types, and make pointers of any type of addresses. -/
def Discipline.anyPointer (target : Target) : Discipline where
  types := Ty.All (Ty.Regular target)
  taken ty := ∃ t, ty = .ptr t
  moved _ := True

/-- A value has the shape that its type says, and the type is regular all through. -/
structure Formed (target : Target) (a : Value × Ty) : Prop where
  regular : a.2.All (Ty.Regular target)
  shaped : a.2.Shaped target a.1

namespace Formed

theorem tuple {vs : List (Value × Ty)} (regular : ty.All (Ty.Regular target))
    (formed : ∀ a ∈ vs, Formed target a) (takes : ty.Takes (vs.map (·.2))) :
    Formed target (.tuple (vs.map (·.1)), ty) := by
  refine ⟨regular, ?_⟩
  cases ty with
  | tuple fields size =>
      refine .tuple (List.forall₂_map_right_iff.2 (takes.forall₂.imp fun f a ⟨ha, same⟩ => ?_))
      exact same ▸ (formed a ha).shaped
  | array elem count =>
      obtain ⟨length, same⟩ := takes
      refine .array ?_ (List.forall_mem_map.2 fun a ha => ?_)
      · rw [← length, List.length_map, List.length_map]
      · exact same a.2 (List.mem_map_of_mem ha) ▸ (formed a ha).shaped
  | _ => exact takes.elim

/-- Whatever pointers are made of addresses, values have the shape that their types say. -/
theorem keeps : (Discipline.anyPointer target).Keeps target (Formed target) where
  regular := id
  typed typed := ⟨typed.regular, (Ty.wellFormed_iff.1 typed.wellFormed).1⟩
  int := by
    rintro n t ⟨regular, shaped⟩
    cases shaped with
    | int fits => exact ⟨regular, Ty.wellFormed_int_iff.2 ⟨n, rfl, fits⟩⟩
  address := by
    rintro p ty ⟨-, shaped⟩
    cases shaped with
    | ptr address => exact address
  taken := by
    rintro p _ ⟨t, rfl⟩ address
    exact ⟨Ty.all_regular_ptr, .ptr address⟩
  moved := by
    rintro p q ty - ⟨regular, shaped⟩ address
    cases shaped with
    | ptr _ => exact ⟨regular, .ptr address⟩
  tuple := tuple
  variant := by
    rintro e d v variant regular found ⟨-, shaped⟩
    obtain ⟨n, rfl, at_⟩ := elementAt_eq_ok_iff.1 found
    exact ⟨regular, .enum at_ shaped⟩

/-- The test of a value of the right shape tells whether it is secure. -/
theorem wellFormed_eq (formed : Formed target (v, ty)) (width : 1 ≤ target.ptrSize)
    (aligned : ty.Every Ty.PointeeAligned) :
    (ty.Secure v → ty.wellFormed target v = .ok true) ∧
      (¬ty.Secure v → ty.wellFormed target v = .ok false) := by
  have ints : ty.Every Ty.IntSized := formed.regular.every.imp fun _ r => r.int_sized
  constructor
  · intro secure
    exact Ty.wellFormed_iff.2 ⟨formed.shaped, secure⟩
  · intro insecure
    exact (formed.shaped.wellFormed_eq_false_iff width ints aligned).2 insecure

end Formed

/-! ## Writing bytes to read them again -/

theorem Ty.encode_of_illFormed (h : ty.wellFormed target v = .ok false) :
    ty.encode target v = .error (.defect (.illFormed v ty)) := by
  simp only [Ty.encode, h, bind, Except.bind, require_false]

/-- A well-formed value has bytes, if the tags of its type can be written. -/
theorem Ty.exists_encode (tags : ty.Every TagsFit) (h : ty.wellFormed target v = .ok true) :
    ∃ data, ty.encode target v = .ok data := by
  obtain ⟨data, made⟩ := exists_bytes tags h
  exact ⟨data, encode_eq_ok_iff.2 ⟨h, made⟩⟩

namespace Value

/-- A transmute between types of different sizes is undefined, whatever the value. -/
theorem transmute_of_ne (differ : s.byteSize target ≠ t.byteSize target) :
    v.transmute target s t = .error (.undefined .transmuteSize) := by
  simp only [transmute, beq_eq_false_iff_ne.2 differ, require_false, bind, Except.bind]

/-- A transmute of a well-formed value is undefined at worst. -/
theorem failsIn_transmute (tags : s.Every Ty.TagsFit) (aligned : t.Every Ty.PointeeAligned)
    (named : t.Every Ty.VariantsNamed) (h : s.wellFormed target v = .ok true) :
    FailsIn Fault.IsUndefined (v.transmute target s t) := by
  obtain ⟨data, made⟩ := Ty.exists_encode tags h
  obtain ⟨o, decoded⟩ := Ty.exists_decode target aligned named data
  unfold transmute
  refine .bind (.require trivial) fun _ _ => ?_
  rw [made]
  show FailsIn Fault.IsUndefined (t.decode target data >>= _)
  rw [decoded]
  cases o with
  | none => exact .throw trivial
  | some w => exact .pure w

/-- A transmute of a value that is not well-formed is a defect, if the sizes agree. -/
theorem transmute_of_illFormed (same : s.byteSize target = t.byteSize target)
    (h : s.wellFormed target v = .ok false) :
    v.transmute target s t = .error (.defect (.illFormed v s)) := by
  simp only [transmute, beq_iff_eq.2 same, require_true, Ty.encode_of_illFormed h, bind, Except.bind]

end Value

namespace UnionTy

variable {u : UnionTy} {i : Int} {f : Field}

theorem exists_ofField (found : u.fieldAt i = .ok f) (tags : f.ty.Every Ty.TagsFit)
    (h : f.ty.wellFormed target v = .ok true) : ∃ w, u.ofField target i v = .ok w := by
  obtain ⟨data, made⟩ := Ty.exists_encode tags h
  simp only [ofField, found, made, bind, Except.bind]
  exact ⟨_, rfl⟩

theorem ofField_of_illFormed (found : u.fieldAt i = .ok f)
    (h : f.ty.wellFormed target v = .ok false) :
    u.ofField target i v = .error (.defect (.illFormed v f.ty)) := by
  simp only [ofField, found, Ty.encode_of_illFormed h, bind, Except.bind]

end UnionTy

/-! ## Expressions -/

namespace Machine

variable {m m' : Machine} {e : ValueExpr} {program : Program} {chooser : Chooser}
  {predictor : Predictor}

/-- In a reachable state let an expression, which may make pointers of any type of addresses, yield a
value. Where the safe pointers in it have addresses that they may have, as they do if only raw pointers
are made of addresses, to transmute it is undefined behaviour at worst, and a union can be made of it.
Where they do not, both are a defect, but for a transmute to a type of another size. -/
theorem reinterpreted_of_reachable (h : Reachable program target chooser predictor m)
    (declared : program.Declares (Ty.All (Ty.Regular target)))
    (obeys : e.Obeys (.anyPointer target) m) (run : evalValue e m = (.ok (v, ty), m'))
    (tags : ty.Every Ty.TagsFit) (aligned : ty.Every Ty.PointeeAligned) :
    (∀ t : Ty, t.Every Ty.PointeeAligned → t.Every Ty.VariantsNamed →
      (ty.Secure v ∨ ty.byteSize target ≠ t.byteSize target →
        FailsIn Fault.IsUndefined (evalValue (.unary (.transmute t) e) m).1) ∧
      (¬ty.Secure v → ty.byteSize target = t.byteSize target →
        evalValue (.unary (.transmute t) e) m = (.error (.defect (.illFormed v ty)), m'))) ∧
    (∀ (u : UnionTy) (i : Int) (f : Field), u.fieldAt i = .ok f → f.ty = ty →
      (ty.Secure v → ∃ w, evalValue (.union i e u) m = (.ok (w, .union u), m')) ∧
      (¬ty.Secure v → evalValue (.union i e u) m = (.error (.defect (.illFormed v ty)), m'))) ∧
    (e.Fits (Ty.All (Ty.Regular target)) m → ty.Secure v) := by
  have ready := h.ready declared
  obtain ⟨ready', formed⟩ := Formed.keeps.evalValue e ready obeys run
  obtain ⟨wellFormed, illFormed⟩ := formed.wellFormed_eq ready.width aligned
  refine ⟨fun t aligned named => ?_, ?_, fun fits => ?_⟩
  · rw [evalValue_transmute run, ready'.target_eq]
    constructor
    · intro fine
      -- sizes are compared before anything is written
      by_cases same : ty.byteSize target = t.byteSize target
      · have secure := fine.resolve_right (not_not.2 same)
        exact (Value.failsIn_transmute tags aligned named (wellFormed secure)).mapOk
      · rw [Value.transmute_of_ne same]
        exact .error trivial
    · intro insecure same
      rw [Value.transmute_of_illFormed same (illFormed insecure)]
      rfl
  · rintro u i f found rfl
    rw [evalValue_union run, ready'.target_eq]
    constructor
    · intro secure
      obtain ⟨w, made⟩ := UnionTy.exists_ofField found tags (wellFormed secure)
      rw [made]
      exact ⟨w, rfl⟩
    · intro insecure
      rw [UnionTy.ofField_of_illFormed found (illFormed insecure)]
      rfl
  · have typed := (yields_evalValue e ready fits run).2
    exact (Ty.wellFormed_iff.1 typed.wellFormed).2

/-- The type of a reference to something with this alignment. -/
def referenceTo (align : Int) : Ty := .ptr (.ref false ⟨align, align, true, true⟩)

/-- The address of the local, as a reference. -/
def localReference (align : Int) : ValueExpr := .addrOf (.var "x") (referenceTo align)

/-- The bytes of a reference, to be read as one or not at all. -/
def referenceBytes (align : Int) : UnionTy := ⟨[⟨0, referenceTo align⟩], [⟨0, 8⟩], 8⟩

/-- The number whose bytes are those of the reference. -/
def localNumber (align : Int) : ValueExpr :=
  .unary (.transmute (.int ⟨false, 8⟩)) (localReference align)

theorem reachable_whileLive :
    Reachable (holding .bool) ⟨8, .little⟩ inTurn .standard (whileLive .bool) :=
  .next (.begun rfl) rfl

theorem declares_holding_bool :
    (holding .bool).Declares (Ty.All (Ty.Regular ⟨8, .little⟩)) :=
  declares_holding Ty.all_regular_bool (.of_parts_eq_nil rfl Ty.regular_tuple)

theorem obeys_localReference (align : Int) :
    (localReference align).Obeys (.anyPointer ⟨8, .little⟩) (whileLive .bool) :=
  ⟨⟨_, rfl⟩, trivial⟩

/-- The address of the local is one that a reference to a byte may have, so its bytes can be read as
those of a number, and laid into a union. -/
theorem reinterpreted_localReference :
    (evalValue (localNumber 1) (whileLive .bool)).1 = .ok (.int 3, .int ⟨false, 8⟩) ∧
      FailsIn Fault.IsUndefined (evalValue (localNumber 1) (whileLive .bool)).1 ∧
      ∃ w, evalValue (.union 0 (localReference 1) (referenceBytes 1)) (whileLive .bool) =
        (.ok (w, .union (referenceBytes 1)), whileLive .bool) := by
  have run : evalValue (localReference 1) (whileLive .bool) =
      (.ok (.ptr ⟨3, some ⟨2⟩⟩, referenceTo 1), whileLive .bool) := rfl
  have aligned : (referenceTo 1).Every Ty.PointeeAligned := by
    refine .intro ?_ (List.forall_mem_nil _)
    rintro _ ⟨⟩
    decide
  have secure : (referenceTo 1).Secure (.ptr ⟨3, some ⟨2⟩⟩) := Ty.secure_ptr_iff.2 rfl
  obtain ⟨transmutes, unions, -⟩ := reinterpreted_of_reachable reachable_whileLive
    declares_holding_bool (obeys_localReference 1) run (.intro trivial (List.forall_mem_nil _)) aligned
  refine ⟨rfl, (transmutes (.int ⟨false, 8⟩) ?_ ?_).1 (.inl secure), ?_⟩
  · exact .intro trivial (List.forall_mem_nil _)
  · exact .intro trivial (List.forall_mem_nil _)
  · exact (unions (referenceBytes 1) 0 _ rfl rfl).1 secure

/-- The address of the local is not one that a reference to eight bytes may have. The expression yields
it all the same. To read its bytes as a number, which have the same size, is a defect, and so is to
make a union of it, and a run that prints the number ends in the defect. -/
theorem misaligned_localReference :
    (Reachable (holding .bool) ⟨8, .little⟩ inTurn .standard (whileLive .bool) ∧
      (holding .bool).Declares (Ty.All (Ty.Regular ⟨8, .little⟩)) ∧
      (localReference 8).Obeys (.anyPointer ⟨8, .little⟩) (whileLive .bool) ∧
      (referenceTo 8).Every (Ty.Sound ⟨8, .little⟩) ∧
      (referenceTo 8).Every Ty.PointeeAligned ∧ (Ty.int ⟨false, 8⟩).Every (Ty.Sound ⟨8, .little⟩)) ∧
    (evalValue (localReference 8) (whileLive .bool)).1 =
      .ok (.ptr ⟨3, some ⟨2⟩⟩, referenceTo 8) ∧
    (evalValue (localNumber 8) (whileLive .bool)).1 =
      .error (.defect (.illFormed (.ptr ⟨3, some ⟨2⟩⟩) (referenceTo 8))) ∧
    (evalValue (.union 0 (localReference 8) (referenceBytes 8)) (whileLive .bool)).1 =
      .error (.defect (.illFormed (.ptr ⟨3, some ⟨2⟩⟩) (referenceTo 8))) ∧
    ∃ d, (Session.runProgram (Session.printingAfter [.live "x"] [localNumber 8]) {} none .standard
      Session.quiet).1 = .error (.defect d) := by
  refine ⟨⟨reachable_whileLive, declares_holding_bool, obeys_localReference 8, ?_, ?_, ?_⟩, rfl, rfl,
    rfl, Session.exists_defect_of_blames (by decide +kernel)⟩
  · exact .intro Ty.sound_ptr (List.forall_mem_nil _)
  · refine .intro ?_ (List.forall_mem_nil _)
    rintro _ ⟨⟩
    decide
  · exact .intro Ty.sound_int (List.forall_mem_nil _)

end Machine

end AbstractMachine
