/-
# AbstractMachine.Proofs.Memory.Retagging — what retagging a value asks for

To retag a value is to ask for each safe pointer that is found in it whether it can be dereferenced
(`Ty.Shows`), and to leave the value as it is. So it is a row of checks: it succeeds if all of them do,
and fails as one of them does (`checks_retagValue`). Such a row is put together from the rows of the
parts, as the value is from its parts (`Checks.bind`).
-/
import AbstractMachine.Proofs.Provenance.Carried

namespace AbstractMachine

variable {α β : Type}

/-! ## Rows of checks -/

/-- An answer is `a` if all checks that are made succeed, and else it fails as one of them does. -/
def Checks (x : Except Fault α) (a : α) (made : Except Fault Unit → Prop) : Prop :=
  (x = .ok a ∧ ∀ c, made c → c = .ok ()) ∨ ∃ f, x = .error f ∧ made (.error f)

namespace Checks

variable {x : Except Fault α} {a : α} {made made' all : Except Fault Unit → Prop}

theorem ok (none : ∀ c, ¬ made c) : Checks (.ok a) a made :=
  .inl ⟨rfl, fun c hc => absurd hc (none c)⟩

/-- A check is a row of its own. -/
theorem single (x : Except Fault Unit) : Checks x () fun c => c = x := by
  cases x with
  | error f => exact .inr ⟨f, rfl, rfl⟩
  | ok u => exact .inl ⟨rfl, fun c hc => hc⟩

/-- One row of checks after the other. -/
theorem bind {f : α → Except Fault β} {b : β} (first : Checks x a made)
    (second : Checks (f a) b made') (both : ∀ c, all c ↔ made c ∨ made' c) :
    Checks (x >>= f) b all := by
  obtain ⟨rfl, passed⟩ | ⟨g, rfl, failed⟩ := first
  · obtain ⟨last, passed'⟩ | ⟨g, last, failed⟩ := second
    · exact .inl ⟨last, fun c hc => ((both c).1 hc).elim (passed c) (passed' c)⟩
    · exact .inr ⟨g, last, (both _).2 (.inr failed)⟩
  · exact .inr ⟨g, rfl, (both _).2 (.inl failed)⟩

/-- What goes on after the checks, and succeeds, adds none to them. -/
theorem andThen {f : α → Except Fault β} {b : β} (h : Checks x a made) (rest : f a = .ok b) :
    Checks (x >>= f) b made :=
  h.bind (rest ▸ ok fun _ => not_false) fun _ => (or_false _).symm.to_iff

theorem map {f : α → β} (h : Checks x a made) : Checks (x >>= fun a => pure (f a)) (f a) made :=
  h.andThen rfl

theorem congr (h : Checks x a made) (same : ∀ c, all c ↔ made c) : Checks x a all := by
  obtain ⟨passes, passed⟩ | ⟨g, fails, failed⟩ := h
  · exact .inl ⟨passes, fun c hc => passed c ((same c).1 hc)⟩
  · exact .inr ⟨g, fails, (same _).2 failed⟩

theorem eq_ok_iff (h : Checks x a made) {b : α} : x = .ok b ↔ b = a ∧ ∀ c, made c → c = .ok () := by
  obtain ⟨rfl, passed⟩ | ⟨g, rfl, failed⟩ := h
  · rw [Except.ok.injEq]
    exact ⟨fun same => ⟨same.symm, passed⟩, fun both => both.1.symm⟩
  · simp only [reduceCtorEq, false_iff, not_and, not_forall]
    exact fun _ => ⟨_, failed, nofun⟩

/-- The answer fails in no other way than a check. -/
theorem failsIn {E : Fault → Prop} (h : Checks x a made) (each : ∀ c, made c → FailsIn E c) :
    FailsIn E x := by
  obtain ⟨rfl, -⟩ | ⟨g, rfl, failed⟩ := h
  · exact .ok a
  · exact .error (each _ failed g rfl)

end Checks

/-! ## Pointers in a value -/

/-- A safe pointer is found in a value, with what it has to point to: in a tuple or array, or in the
variant that is there, but not in a union. -/
inductive Ty.Shows : Ty → Value → Pointer → Pointee → Prop
  | ptr {t : PtrTy} {p : Pointer} {pointee : Pointee} : t.safePointee = some pointee →
      Shows (.ptr t) (.ptr p) p pointee
  | field {fields : List Field} {size : Int} {vs : List Value} {f : Field} {v : Value} {p : Pointer}
      {pointee : Pointee} : (f, v) ∈ fields.zip vs → Shows f.ty v p pointee →
      Shows (.tuple fields size) (.tuple vs) p pointee
  | elem {elem : Ty} {count : Int} {vs : List Value} {v : Value} {p : Pointer} {pointee : Pointee} :
      v ∈ vs → Shows elem v p pointee → Shows (.array elem count) (.tuple vs) p pointee
  | payload {e : EnumTy} {n : Nat} {variant : Variant} {v : Value} {p : Pointer} {pointee : Pointee} :
      e.variants[n]? = some variant → Shows variant.ty v p pointee →
      Shows (.enum e) (.variant n v) p pointee

namespace Ty.Shows

variable {ty : Ty} {v : Value} {p : Pointer} {pointee : Pointee} {id : AllocId}

/-- A name on a pointer is one that the value carries. -/
theorem carries (h : ty.Shows v p pointee) (named : p.provenance = some id) : v.Carries id := by
  induction h with
  | ptr safe => exact .ptr named
  | field hv _ ih => exact .tuple (List.of_mem_zip hv).2 (ih named)
  | elem hv _ ih => exact .tuple hv (ih named)
  | payload _ _ ih => exact .variant (ih named)

theorem one_le_align (h : ty.Shows v p pointee) (aligned : ty.Every PointeeAligned) :
    1 ≤ pointee.align := by
  induction h with
  | ptr safe => exact aligned.here _ safe
  | field hv _ ih => exact ih (aligned.field (List.of_mem_zip hv).1)
  | elem _ _ ih => exact ih aligned.elem
  | payload at_ _ ih => exact ih (aligned.payload (List.mem_of_getElem? at_))

end Ty.Shows

/-! ## Retagging -/

namespace Memory

variable {m : Memory} {target : Target}

theorem checks_retag (m : Memory) (p : Pointer) (t : PtrTy) :
    Checks (m.retag p t) p fun c => ∃ pointee, t.safePointee = some pointee ∧
      c = m.dereferenceable p pointee.size pointee.align := by
  unfold retag
  split
  · next raw =>
      refine .ok fun c => ?_
      rintro ⟨_, safe, _⟩
      cases raw.symm.trans safe
  · next pointee safe =>
      refine (Checks.single _).map.congr fun c => ?_
      simp only [safe, Option.some.injEq, exists_eq_left']

theorem checks_retagFields {made : Field → Value → Except Fault Unit → Prop} {fields : List Field}
    {vs : List Value}
    (each : List.Forall₂ (fun f v => Checks (m.retagValue f.ty v) v (made f v)) fields vs) :
    Checks (m.retagFields fields vs) vs fun c => ∃ f v, (f, v) ∈ fields.zip vs ∧ made f v c := by
  induction each with
  | nil => exact .ok (by simp)
  | @cons f v fields vs head _ ih =>
      obtain ⟨offset, ty⟩ := f
      refine head.bind ih.map fun c => ?_
      simp only [List.zip_cons_cons, List.mem_cons, Prod.mk.injEq]
      grind

theorem checks_retagAll {retag : Value → Except Fault Value} {vs : List Value}
    {made : Value → Except Fault Unit → Prop} (each : ∀ v ∈ vs, Checks (retag v) v (made v)) :
    Checks (retagAll retag vs) vs fun c => ∃ v ∈ vs, made v c := by
  induction vs with
  | nil => exact .ok (by simp)
  | cons v vs ih =>
      obtain ⟨head, tail⟩ := List.forall_mem_cons.1 each
      exact head.bind (ih tail).map fun c => List.exists_mem_cons_iff ..

/-- The payload is retagged at the type of its variant. -/
theorem retagVariant_eq {variants : List Variant} {n : Nat} {variant : Variant} (d : Int) (v : Value)
    (at_ : variants[n]? = some variant) :
    m.retagVariant d variants n v = m.retagValue variant.ty v := by
  induction variants generalizing n with
  | nil => cases at_
  | cons first rest ih =>
      obtain ⟨ty, tagger⟩ := first
      cases n with
      | zero =>
          obtain rfl := Option.some.inj at_
          rw [retagVariant, if_pos Int.natCast_zero]
      | succ n =>
          have next : ((n + 1 : Nat) : Int) - 1 = n := by omega
          rw [retagVariant, if_neg (by omega), next, ih at_]

/-- To retag a value is to ask for what its safe pointers have to point to. -/
theorem checks_retagValue {ty : Ty} {v : Value} (wf : ty.wellFormed target v = .ok true) :
    Checks (m.retagValue ty v) v fun c => ∃ p pointee, ty.Shows v p pointee ∧
      c = m.dereferenceable p pointee.size pointee.align := by
  induction ty using Ty.induction generalizing v with
  | bool =>
      obtain ⟨b, rfl⟩ := Ty.wellFormed_bool_iff.1 wf
      have same : m.retagValue .bool (.bool b) = .ok (.bool b) := rfl
      rw [same]
      exact .ok fun c => by rintro ⟨_, _, ⟨⟩, _⟩
  | int t =>
      obtain ⟨n, rfl, -⟩ := Ty.wellFormed_int_iff.1 wf
      have same : m.retagValue (.int t) (.int n) = .ok (.int n) := rfl
      rw [same]
      exact .ok fun c => by rintro ⟨_, _, ⟨⟩, _⟩
  | union u =>
      obtain ⟨bss, rfl, -⟩ := Ty.wellFormed_union_iff.1 wf
      have same : m.retagValue (.union u) (.union bss) = .ok (.union bss) := rfl
      rw [same]
      exact .ok fun c => by rintro ⟨_, _, ⟨⟩, _⟩
  | ptr t =>
      obtain ⟨p, rfl, -⟩ := Ty.wellFormed_ptr_iff.1 wf
      rw [retagValue]
      refine (m.checks_retag p t).map.congr fun c => ?_
      constructor
      · rintro ⟨p, pointee, ⟨safe⟩, rfl⟩
        exact ⟨pointee, safe, rfl⟩
      · rintro ⟨pointee, safe, rfl⟩
        exact ⟨p, pointee, .ptr safe, rfl⟩
  | tuple fields size ih =>
      obtain ⟨vs, rfl, all⟩ := Ty.wellFormed_tuple_iff.1 wf
      rw [retagValue]
      have each := (forall₂_mem all).imp fun f v h => ih f h.1 h.2
      refine (checks_retagFields each).map.congr fun c => ?_
      constructor
      · rintro ⟨p, pointee, shown, rfl⟩
        cases shown with
        | field hv shown => exact ⟨_, _, hv, p, pointee, shown, rfl⟩
      · rintro ⟨f, v, hv, p, pointee, shown, rfl⟩
        exact ⟨p, pointee, .field hv shown, rfl⟩
  | array elem count ih =>
      obtain ⟨vs, rfl, -, all⟩ := Ty.wellFormed_array_iff.1 wf
      rw [retagValue]
      refine (checks_retagAll fun v hv => ih (all v hv)).map.congr fun c => ?_
      constructor
      · rintro ⟨p, pointee, shown, rfl⟩
        cases shown with
        | elem hv shown => exact ⟨_, hv, p, pointee, shown, rfl⟩
      · rintro ⟨v, hv, p, pointee, shown, rfl⟩
        exact ⟨p, pointee, .elem hv shown, rfl⟩
  | enum e ih _ =>
      obtain ⟨n, variant, payload, rfl, at_, good⟩ := Ty.wellFormed_enum_iff.1 wf
      obtain ⟨variants, discriminator, discriminantTy, size⟩ := e
      rw [retagValue, retagVariant_eq _ _ at_]
      refine (ih variant (List.mem_of_getElem? at_) good).map.congr fun c => ?_
      constructor
      · rintro ⟨p, pointee, shown, rfl⟩
        cases shown with
        | payload at' shown =>
            obtain rfl := Option.some.inj (at_.symm.trans at')
            exact ⟨p, pointee, shown, rfl⟩
      · rintro ⟨p, pointee, shown, rfl⟩
        exact ⟨p, pointee, .payload at_ shown, rfl⟩

end Memory

end AbstractMachine
