import ImportClosure.Cache

/-!
# The cache, identity by identity

`find?` is all that can be seen of a cache. Adding a module fills the place of its identity if that is empty and changes
nothing else.
-/

namespace ImportClosure

/-- Whatever stands for a module is compared by its identity. -/
theorem Handle.isOf_eq {α : Type} [Handle α] (m : α) (i : Identity) :
    Handle.isOf m i = decide (Handle.identity m = i) := by
  cases i
  rw [Bool.eq_iff_iff]
  simp [Handle.isOf, Handle.identity, Handle.key, ModuleKey.isOf, ModuleRecord.identity, ModuleKey.identity]

/-- A record stands for an identity if the identity is its own. -/
theorem ModuleRecord.isOf_iff (m : ModuleRecord) (i : Identity) : Handle.isOf m i = true ↔ m.identity = i := by
  rw [Handle.isOf_eq, decide_eq_true_iff]
  rfl

namespace Cache

variable {c : Cache ModuleRecord} {m kept : ModuleRecord} {i : Identity}

/-- What is found under an identity has this identity. -/
theorem identity_of_find? (h : c.find? i = some kept) : kept.identity = i := by
  have hk := List.find?_some h
  exact (ModuleRecord.isOf_iff kept i).1 hk

/-- Adding keeps what is found. -/
theorem find?_add_of_some (h : c.find? i = some kept) : (c.add m).2.find? i = some kept := by
  unfold Cache.add
  split
  · exact h
  · simp only [Cache.find?, List.find?_append] at h ⊢
    rw [h]
    rfl

/-- The record that is kept is found under the identity of the one that was added. -/
theorem find?_add_self : (c.add m).2.find? m.identity = some (c.add m).1 := by
  unfold Cache.add
  split
  next kept h => exact h
  next h =>
    simp only [Cache.find?, List.find?_append] at h ⊢
    rw [show Handle.identity m = m.identity from rfl] at h
    simp [h, (ModuleRecord.isOf_iff m _).2]

/-- Nothing else is found than before. -/
theorem find?_add_of_ne (h : m.identity ≠ i) : (c.add m).2.find? i = c.find? i := by
  unfold Cache.add
  split
  · rfl
  · have hm : Handle.isOf m i = false := by
      rw [← Bool.not_eq_true, ModuleRecord.isOf_iff]
      exact h
    simp [Cache.find?, List.find?_append, hm]

/-- The record that is kept has the identity of the one that was added. -/
@[simp] theorem identity_add : (c.add m).1.identity = m.identity :=
  identity_of_find? find?_add_self

/-- A record of an identity that was not there is kept as it is. -/
theorem add_of_none (h : c.find? m.identity = none) : (c.add m).1 = m := by
  unfold Cache.add
  split
  next kept h' => exact absurd (h'.symm.trans h) (by simp)
  · rfl

/-- Only the record that was added may be in the cache besides those that were, and only if its identity was not there. -/
theorem mem_add {k : ModuleRecord} (h : k ∈ (c.add m).2.modules) :
    k ∈ c.modules ∨ k = m ∧ c.find? m.identity = none := by
  unfold Cache.add at h
  split at h
  · exact Or.inl h
  next hnone =>
    rcases List.mem_append.1 h with h | h
    · exact Or.inl h
    · exact Or.inr ⟨List.mem_singleton.1 h, hnone⟩

/-- Records of different identities stay different. -/
theorem nodup_add (h : (c.modules.map ModuleRecord.identity).Nodup) :
    ((c.add m).2.modules.map ModuleRecord.identity).Nodup := by
  unfold Cache.add
  split
  · exact h
  next hnone =>
    rw [List.map_append, List.map_singleton, List.nodup_append]
    refine ⟨h, by simp, ?_⟩
    rintro i hi _ hm rfl
    obtain ⟨k, hk, rfl⟩ := List.mem_map.1 hi
    have hfind := List.find?_eq_none.1 hnone k hk
    rw [ModuleRecord.isOf_iff] at hfind
    exact hfind (List.mem_singleton.1 hm)

/-- Exactly one identity is found after adding that may not have been found before. -/
theorem isSome_find?_add : ((c.add m).2.find? i).isSome ↔ (c.find? i).isSome ∨ i = m.identity := by
  by_cases h : m.identity = i
  · subst h
    simp [find?_add_self]
  · rw [find?_add_of_ne h]
    simp [Ne.symm h]

end Cache

end ImportClosure
