/-
# AbstractMachine.Proofs.Machine.Transmutation — reinterpreting bytes there and back

A transmute writes a value at one type and reads the bytes at another one. The two types need have
nothing in common but their size, so padding, provenance and the bytes of a union are lost at other
places on the way there than on the way back. What carries over are bytes. Those that are written on
the way back are below those that were written on the way there, if the type in between writes its
components where it reads them; reading is monotone; and reading its own bytes gives no more of a
value than it was, if its type keeps components apart. So nothing is gained (`Value.le_of_transmute`).

The machine is asked for its target, and is otherwise left alone.
-/
import AbstractMachine.Proofs.Machine.Operations
import AbstractMachine.Proofs.Refinement.Values
import AbstractMachine.Proofs.Representation.Reencoding
import AbstractMachine.Proofs.Representation.RoundTrip

namespace AbstractMachine

open AbsByte

variable {target : Target} {s t : Ty} {v w : Value}

/-! ## There and back -/

/-- A transmute succeeds if the sizes agree and the bytes of the value stand for another one. -/
theorem Value.transmute_eq_ok_iff :
    v.transmute target s t = .ok w ↔ s.byteSize target = t.byteSize target ∧
      ∃ data, s.encode target v = .ok data ∧ t.decode target data = .ok (some w) := by
  simp only [Value.transmute, bind_eq_ok_iff, require_eq_ok_iff, beq_iff_eq]
  constructor
  · rintro ⟨_, same, data, made, o, decoded, h⟩
    cases o with
    | none => cases h
    | some x =>
        obtain rfl := Except.ok.inj h
        exact ⟨same, data, made, decoded⟩
  · rintro ⟨same, data, made, decoded⟩
    exact ⟨(), same, data, made, some w, decoded, rfl⟩

/-- What is read from the bytes of a value is no more than the value. -/
theorem Ty.le_of_decode_encode {data : List AbsByte} (retrievable : s.Every (Retrievable target))
    (made : s.encode target v = .ok data) (read : s.decode target data = .ok (some w)) :
    w.le v = true := by
  obtain ⟨wf, bytes⟩ := encode_eq_ok_iff.1 made
  obtain ⟨x, decoded, below, -⟩ :=
    recovers_of_fillsPadding retrievable wf bytes (.refl s data) (.inr ⟨w, read⟩)
  rw [read] at decoded
  cases decoded
  exact below

/-- A value that went through another type comes back as defined as it was, at most. -/
theorem Value.le_of_transmute {v' : Value} (retrievable : s.Every (Ty.Retrievable target))
    (reflecting : t.Every (Ty.Reflecting target)) (there : v.transmute target s t = .ok w)
    (back : w.transmute target t s = .ok v') : v'.le v = true := by
  obtain ⟨-, first, written, read⟩ := Value.transmute_eq_ok_iff.1 there
  obtain ⟨-, second, rewritten, reread⟩ := Value.transmute_eq_ok_iff.1 back
  have lost : leAll second first = true := by
    obtain ⟨wf, bytes⟩ := Ty.encode_eq_ok_iff.1 rewritten
    exact Ty.leAll_of_reflecting reflecting wf read bytes
  -- the first bytes stand for a value, since those below them do
  obtain ⟨x, own, below⟩ := Ty.exists_decode_of_leAll lost reread
  exact Value.le_trans below (Ty.le_of_decode_encode retrievable written own)

/-! ## Transmutes of a machine -/

namespace Machine

variable {m : Machine}

theorem evalUnary_transmute_eq_ok_iff {u : Ty} {m' : Machine} :
    evalUnary (.transmute t) v s m = (.ok (w, u), m') ↔
      v.transmute m.target s t = .ok w ∧ u = t ∧ m' = m := by
  rw [evalUnary_transmute]
  cases v.transmute m.target s t with
  | error e =>
      constructor
      · rintro ⟨⟩
      · rintro ⟨⟨⟩, -⟩
  | ok x =>
      constructor
      · rintro ⟨⟩
        exact ⟨rfl, rfl, rfl⟩
      · rintro ⟨⟨⟩, rfl, rfl⟩
        rfl

/-- A transmute leaves the machine as the operand has left it. -/
theorem evalValue_transmute_snd (m : Machine) (e : ValueExpr) (t : Ty) :
    (evalValue (.unary (.transmute t) e) m).2 = (evalValue e m).2 := by
  rcases run : evalValue e m with ⟨f | ⟨v, s⟩, m'⟩
  · rw [evalValue, Action.apply_bind_of_error run]
  · rw [evalValue_transmute run]

/-- A value that is transmuted to a type and back comes back at most as defined as it was: the type
that it has keeps its components apart, and the type in between writes its components where it reads
them. Where a transmute succeeds on a value it succeeds on all values above it, with a result above
the first one. And no transmute changes the machine, neither its memory nor what is exposed. -/
theorem transmute_there_and_back (m : Machine) {s t : Ty}
    (retrievable : s.Every (Ty.Retrievable m.target)) (reflecting : t.Every (Ty.Reflecting m.target)) :
    (∀ v w v' m₁ m₂, evalUnary (.transmute t) v s m = (.ok (w, t), m₁) →
      evalUnary (.transmute s) w t m₁ = (.ok (v', s), m₂) → v'.le v = true) ∧
    (∀ v₁ v₂ w₁ m₁, v₁.le v₂ = true → evalUnary (.transmute t) v₁ s m = (.ok (w₁, t), m₁) →
      ∃ w₂, evalUnary (.transmute t) v₂ s m = (.ok (w₂, t), m₁) ∧ w₁.le w₂ = true) ∧
    ∀ (m : Machine) (e : ValueExpr) (ty : Ty),
      (evalValue (.unary (.transmute ty) e) m).2 = (evalValue e m).2 := by
  refine ⟨?_, ?_, evalValue_transmute_snd⟩
  · intro v w v' m₁ m₂ there back
    obtain ⟨there, -, rfl⟩ := evalUnary_transmute_eq_ok_iff.1 there
    obtain ⟨back, -, -⟩ := evalUnary_transmute_eq_ok_iff.1 back
    exact Value.le_of_transmute retrievable reflecting there back
  · intro v₁ v₂ w₁ m₁ le done
    obtain ⟨done, -, rfl⟩ := evalUnary_transmute_eq_ok_iff.1 done
    obtain ⟨w₂, above, le⟩ := transmute_improves le done
    exact ⟨w₂, evalUnary_transmute_eq_ok_iff.2 ⟨above, rfl, rfl⟩, le⟩

/-- A pointer that goes through two bytes comes back without its provenance. -/
theorem transmute_there_and_back_pointer :
    let m := fresh {} ⟨2, .little⟩ (fun _ _ => .ok 0) .standard
    let two : Ty := .array (.int ⟨false, 1⟩) 2
    evalUnary (.transmute two) (.ptr ⟨0x1001, some ⟨3⟩⟩) (.ptr .raw) m =
        (.ok (.tuple [.int 1, .int 16], two), m) ∧
      evalUnary (.transmute (.ptr .raw)) (.tuple [.int 1, .int 16]) two m =
        (.ok (.ptr ⟨0x1001, none⟩, .ptr .raw), m) ∧
      (Value.ptr ⟨0x1001, none⟩).le (.ptr ⟨0x1001, some ⟨3⟩⟩) = true := by
  intro m two
  have there : evalUnary (.transmute two) (.ptr ⟨0x1001, some ⟨3⟩⟩) (.ptr .raw) m =
      (.ok (.tuple [.int 1, .int 16], two), m) := rfl
  have back : evalUnary (.transmute (.ptr .raw)) (.tuple [.int 1, .int 16]) two m =
      (.ok (.ptr ⟨0x1001, none⟩, .ptr .raw), m) := rfl
  have pointer : (Ty.ptr .raw).Every (Ty.Retrievable m.target) :=
    .intro Ty.sound_ptr.legible.retrievable (List.forall_mem_nil _)
  have byte : (Ty.int ⟨false, 1⟩).Every (Ty.Reflecting m.target) :=
    .intro (Ty.coherent_int_iff.2 (by decide)).reflecting (List.forall_mem_nil _)
  have bytes : two.Every (Ty.Reflecting m.target) :=
    .intro (Ty.coherent_array_iff.2 (by decide)).reflecting (List.forall_mem_singleton.2 byte)
  exact ⟨there, back, (transmute_there_and_back m pointer bytes).1 _ _ _ _ _ there back⟩

end Machine

end AbstractMachine
