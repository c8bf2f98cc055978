/-
# AbstractMachine.Ty.Equality — deciding whether two types are the same

Types are compared as trees, layout included: two tuples with the same fields at other offsets are
different types. `same` walks both trees, and `same_iff` says that it decides equality.
-/
import AbstractMachine.Ty

namespace AbstractMachine

/-! ## Discriminators -/

mutual

/-- Whether two decision trees are the same. -/
def Discriminator.same : Discriminator → Discriminator → Bool
  | .known a, .known b => a == b
  | .invalid, .invalid => true
  | .branch o t cs f, .branch o' t' cs' f' => o == o' && t == t' && sameBranches cs cs' && f.same f'
  | _, _ => false

def sameBranches : List Branch → List Branch → Bool
  | [], [] => true
  | ⟨a, z, d⟩ :: bs, ⟨a', z', d'⟩ :: bs' => a == a' && z == z' && d.same d' && sameBranches bs bs'
  | _, _ => false

end

mutual

theorem Discriminator.same_iff : ∀ d e : Discriminator, d.same e = true ↔ d = e
  | .known a, e => by cases e <;> simp [Discriminator.same]
  | .invalid, e => by cases e <;> simp [Discriminator.same]
  | .branch o t cs f, e => by
      cases e with
      | branch o' t' cs' f' =>
          simp [Discriminator.same, sameBranches_iff cs cs', Discriminator.same_iff f f', and_assoc]
      | _ => simp [Discriminator.same]

theorem sameBranches_iff : ∀ bs cs : List Branch, sameBranches bs cs = true ↔ bs = cs
  | [], cs => by cases cs <;> simp [sameBranches]
  | ⟨a, z, d⟩ :: bs, cs => by
      cases cs with
      | nil => simp [sameBranches]
      | cons c cs =>
          obtain ⟨a', z', d'⟩ := c
          simp [sameBranches, Discriminator.same_iff d d', sameBranches_iff bs cs, and_assoc]

end

instance : DecidableEq Discriminator := fun d e =>
  decidable_of_iff _ (Discriminator.same_iff d e)

/-! ## Types -/

mutual

/-- Whether two types are the same. -/
def Ty.same : Ty → Ty → Bool
  | .bool, .bool => true
  | .int a, .int b => a == b
  | .ptr a, .ptr b => a == b
  | .tuple fs n, .tuple gs m => sameFields fs gs && n == m
  | .array e n, .array f m => e.same f && n == m
  | .union ⟨fs, cs, n⟩, .union ⟨gs, ds, m⟩ => sameFields fs gs && cs == ds && n == m
  | .enum ⟨vs, d, t, n⟩, .enum ⟨ws, e, u, m⟩ =>
      sameVariants vs ws && decide (d = e) && t.same u && n == m
  | _, _ => false

def sameFields : List Field → List Field → Bool
  | [], [] => true
  | ⟨o, t⟩ :: fs, ⟨p, u⟩ :: gs => o == p && t.same u && sameFields fs gs
  | _, _ => false

def sameVariants : List Variant → List Variant → Bool
  | [], [] => true
  | ⟨t, ws⟩ :: vs, ⟨u, xs⟩ :: us => t.same u && ws == xs && sameVariants vs us
  | _, _ => false

end

mutual

theorem Ty.same_iff : ∀ t u : Ty, t.same u = true ↔ t = u
  | .bool, u => by cases u <;> simp [Ty.same]
  | .int a, u => by cases u <;> simp [Ty.same]
  | .ptr a, u => by cases u <;> simp [Ty.same]
  | .tuple fs n, u => by cases u <;> simp [Ty.same, sameFields_iff fs]
  | .array e n, u => by
      cases u with
      | array f m => simp [Ty.same, Ty.same_iff e f]
      | _ => simp [Ty.same]
  | .union ⟨fs, cs, n⟩, u => by
      cases u with
      | union u => cases u; simp [Ty.same, sameFields_iff fs, and_assoc]
      | _ => simp [Ty.same]
  | .enum ⟨vs, d, t, n⟩, u => by
      cases u with
      | enum u => cases u; simp [Ty.same, sameVariants_iff vs, Ty.same_iff t, and_assoc]
      | _ => simp [Ty.same]

theorem sameFields_iff : ∀ fs gs : List Field, sameFields fs gs = true ↔ fs = gs
  | [], gs => by cases gs <;> simp [sameFields]
  | ⟨o, t⟩ :: fs, gs => by
      cases gs with
      | nil => simp [sameFields]
      | cons g gs => cases g; simp [sameFields, Ty.same_iff t, sameFields_iff fs gs, and_assoc]

theorem sameVariants_iff : ∀ vs ws : List Variant, sameVariants vs ws = true ↔ vs = ws
  | [], ws => by cases ws <;> simp [sameVariants]
  | ⟨t, xs⟩ :: vs, ws => by
      cases ws with
      | nil => simp [sameVariants]
      | cons w ws => cases w; simp [sameVariants, Ty.same_iff t, sameVariants_iff vs ws, and_assoc]

end

instance : DecidableEq Ty := fun t u =>
  decidable_of_iff _ (Ty.same_iff t u)

end AbstractMachine
