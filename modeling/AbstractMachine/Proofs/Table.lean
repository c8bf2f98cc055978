/-
# AbstractMachine.Proofs.Table — tables with distinct keys

A table that is only ever put into and erased from has each key once (`nodup_keys_insert`,
`nodup_keys_erase`), and then its entries and its view say the same (`find?_of_mem_entries`).
-/
import AbstractMachine.Table

namespace AbstractMachine

namespace Table

variable {κ α : Type} [DecidableEq κ] {t : Table κ α} {k : κ} {a : α}

theorem mem_entries_of_find? (h : t.find? k = some a) : (k, a) ∈ t.entries := by
  obtain ⟨e, found, rfl⟩ := Option.map_eq_some_iff.1 h
  have key : e.1 = k := by simpa using List.find?_some found
  exact key ▸ List.mem_of_find?_eq_some found

/-- Where keys are distinct, what is in a table is what is found. -/
theorem find?_of_mem_entries (distinct : t.keys.Nodup) (h : (k, a) ∈ t.entries) :
    t.find? k = some a := by
  obtain ⟨entries⟩ := t
  simp only [keys, find?] at *
  induction entries with
  | nil => cases h
  | cons e rest ih =>
      rw [List.map_cons, List.nodup_cons] at distinct
      rcases List.mem_cons.1 h with rfl | h
      · simp
      · have other : e.1 ≠ k := by
          rintro rfl
          exact distinct.1 (List.mem_map.2 ⟨_, h, rfl⟩)
        rw [List.find?_cons_of_neg (by simpa using other)]
        exact ih distinct.2 h

/-- In a table of one entry it is found, and nothing else. -/
theorem find?_singleton_iff {l : κ} {b : α} :
    (⟨[(k, a)]⟩ : Table κ α).find? l = some b ↔ k = l ∧ a = b := by
  by_cases same : k = l <;> simp [find?, same]

theorem not_mem_keys_of_find? (h : t.find? k = none) : k ∉ t.keys := by
  intro mem
  obtain ⟨e, he, rfl⟩ := List.mem_map.1 mem
  simp only [find?, Option.map_eq_none_iff, List.find?_eq_none, beq_iff_eq] at h
  exact h e he rfl

theorem nodup_keys_insert (distinct : t.keys.Nodup) (h : t.find? k = none) :
    (t.insert k a).keys.Nodup := by
  rw [keys_insert_of_find?_eq_none a h, List.nodup_append]
  refine ⟨distinct, by simp, ?_⟩
  rintro l hl _ hk rfl
  rw [List.mem_singleton] at hk
  exact not_mem_keys_of_find? h (hk ▸ hl)

/-- A key that is there stays in its place. -/
theorem keys_insert_of_find? {b : α} (h : t.find? k = some b) : (t.insert k a).keys = t.keys := by
  obtain ⟨entries⟩ := t
  simp only [find?, keys, insert, Option.map_eq_some_iff] at *
  induction entries with
  | nil => simp at h
  | cons e rest ih =>
      rw [put]
      split
      · next same => simp [same]
      · next other =>
          rw [List.find?_cons_of_neg (by simpa using other)] at h
          rw [List.map_cons, ih h, List.map_cons]

theorem nodup_keys_erase (distinct : t.keys.Nodup) : (t.erase k).keys.Nodup :=
  distinct.sublist (List.Sublist.map _ List.filter_sublist)

/-- What is in a table after a key was put in was there before, or is what was put in. -/
theorem mem_insert_entries {e : κ × α} (h : e ∈ (t.insert k a).entries) :
    e ∈ t.entries ∨ e = (k, a) := by
  obtain ⟨entries⟩ := t
  simp only [insert] at h ⊢
  induction entries with
  | nil => exact .inr (List.mem_singleton.1 h)
  | cons d rest ih =>
      obtain ⟨l, b⟩ := d
      rw [put] at h
      split at h
      · rcases List.mem_cons.1 h with rfl | h
        · exact .inr rfl
        · exact .inl (List.mem_cons_of_mem _ h)
      · rcases List.mem_cons.1 h with rfl | h
        · exact .inl List.mem_cons_self
        · exact (ih h).imp_left (List.mem_cons_of_mem _)

/-- Erasing the first of several keys leaves the others. -/
theorem erase_cons {rest : List (κ × α)} (distinct : (Table.mk ((k, a) :: rest)).keys.Nodup) :
    (Table.mk ((k, a) :: rest)).erase k = ⟨rest⟩ := by
  rw [keys, List.map_cons, List.nodup_cons] at distinct
  simp only [erase, Table.mk.injEq]
  rw [List.filter_cons_of_neg (by simp), List.filter_eq_self]
  intro e he
  have other : e.1 ≠ k := fun same => distinct.1 (List.mem_map.2 ⟨e, he, same⟩)
  simpa using other

end Table

end AbstractMachine
