/-
# AbstractMachine.Table — finite maps that remember the order of their keys

A table holds one entry for each of its keys, in the order in which the keys first came in. Putting
a new value at a key that is there leaves the key in its place; a new key goes to the end; a key
that was erased and comes back is new. The view of a table is `find?`, and each operation is told by
what it does to it.
-/

namespace AbstractMachine

/-- A finite map with its keys in order. -/
structure Table (κ α : Type) where
  entries : List (κ × α) := []

namespace Table

variable {κ α : Type} [DecidableEq κ]

instance : Inhabited (Table κ α) := ⟨{}⟩

/-- The keys in order. -/
def keys (t : Table κ α) : List κ := t.entries.map (·.1)

/-- The number of entries. -/
def size (t : Table κ α) : Nat := t.entries.length

/-- The value at a key. -/
def find? (t : Table κ α) (k : κ) : Option α :=
  (t.entries.find? (·.1 == k)).map (·.2)

/-- Whether there is a value at a key. -/
def contains (t : Table κ α) (k : κ) : Bool :=
  (t.find? k).isSome

/-- Put a value at a key of an entry list, at the key's place if it has one, else at the end. -/
def put (k : κ) (a : α) : List (κ × α) → List (κ × α)
  | [] => [(k, a)]
  | (l, b) :: rest => if l = k then (k, a) :: rest else (l, b) :: put k a rest

/-- Put a value at a key. -/
def insert (t : Table κ α) (k : κ) (a : α) : Table κ α :=
  ⟨put k a t.entries⟩

/-- Remove a key. -/
def erase (t : Table κ α) (k : κ) : Table κ α :=
  ⟨t.entries.filter fun e => e.1 ≠ k⟩

/-- The table that a list of entries makes, put in from first to last. -/
def ofList (entries : List (κ × α)) : Table κ α :=
  entries.foldl (fun t (k, a) => t.insert k a) {}

/-! ## What the operations do to the view -/

@[simp] theorem find?_empty (k : κ) : ({} : Table κ α).find? k = none := rfl

theorem find?_insert (t : Table κ α) (k l : κ) (a : α) :
    (t.insert k a).find? l = if l = k then some a else t.find? l := by
  obtain ⟨entries⟩ := t
  simp only [find?, insert]
  induction entries with
  | nil => by_cases h : l = k <;> grind [put]
  | cons e rest ih =>
      obtain ⟨m, b⟩ := e
      by_cases hm : m = k <;> by_cases hl : m = l <;> grind [put]

theorem find?_erase (t : Table κ α) (k l : κ) :
    (t.erase k).find? l = if l = k then none else t.find? l := by
  obtain ⟨entries⟩ := t
  simp only [find?, erase]
  induction entries with
  | nil => simp
  | cons e rest ih =>
      obtain ⟨m, b⟩ := e
      by_cases hm : m = k <;> by_cases hl : m = l <;> grind

theorem keys_insert_of_find?_eq_none {t : Table κ α} {k : κ} (a : α) (h : t.find? k = none) :
    (t.insert k a).keys = t.keys ++ [k] := by
  obtain ⟨entries⟩ := t
  simp only [find?, keys, insert, Option.map_eq_none_iff, List.find?_eq_none] at *
  induction entries with
  | nil => rfl
  | cons e rest ih =>
      have hk : e.1 ≠ k := by simpa using h e (by simp)
      simp [put, hk, ih fun x hx => h x (by simp [hx])]

end Table

end AbstractMachine
