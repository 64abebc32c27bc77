import ImportClosure.Proofs.Cache
import ImportClosure.Proofs.Firsts
import ImportClosure.Proofs.Order

/-!
# What additions make of a cache

A cache keeps the first modules of what was added to it (`Cache.modules_ofAdded`), so it can be read off the additions: what
is found under an identity, how many modules there are, and the list of them, which does not depend on the order in which
different identities came (`cache_keeps_firsts`).
-/

namespace ImportClosure

variable {α : Type} [Handle α] {m : α} {i : Identity}

/-- Whether a handle stands for a module of a name at a file. -/
theorem Handle.isOf_place (m : α) (name : ModuleName) (file : ModuleFile) : Handle.isOf m ⟨name, file.place⟩ =
    ((Handle.record m).name == name && (Handle.record m).file.same file) :=
  rfl

namespace Cache

variable {added others : List α}

/-- What additions make of an empty cache. Asking for modules changes nothing. -/
def ofAdded (added : List α) : Cache α :=
  added.foldl (fun c m => (c.add m).2) .empty

/-- A module that is added last is added to the cache of the others. -/
theorem ofAdded_concat (added : List α) (m : α) : ofAdded (added ++ [m]) = ((ofAdded added).add m).2 := by
  simp [ofAdded]

/-- A cache finds the first module that it holds under an identity. -/
theorem find?_eq (c : Cache α) (i : Identity) :
    c.find? i = c.modules.find? fun m => decide (Handle.identity m = i) := by
  simp only [find?, Handle.isOf_eq]

/-- A cache keeps the first modules of what was added. -/
theorem modules_ofAdded (added : List α) : (ofAdded added).modules = firsts Handle.identity added := by
  induction added using List.reverseRecOn with
  | nil => rfl
  | append_singleton added m ih =>
    rw [ofAdded_concat, firsts_concat, add, find?_eq, ih, find?_firsts]
    cases h : added.find? fun other => decide (Handle.identity other = Handle.identity m) with
    | some kept =>
      have hmem : Handle.identity m ∈ added.map Handle.identity :=
        List.mem_map.2 ⟨kept, List.mem_of_find?_eq_some h, by simpa using List.find?_some h⟩
      rw [if_pos hmem]
      exact ih
    | none =>
      have hnew : Handle.identity m ∉ added.map Handle.identity := by
        intro hmem
        obtain ⟨kept, hkept, hid⟩ := List.mem_map.1 hmem
        exact List.find?_eq_none.1 h kept hkept (decide_eq_true hid)
      rw [if_neg hnew]

/-- Under an identity the cache finds what was added first under it. -/
theorem find?_ofAdded (added : List α) (i : Identity) :
    (ofAdded added).find? i = added.find? fun m => decide (Handle.identity m = i) := by
  rw [find?_eq, modules_ofAdded, find?_firsts]

/-- Adding answers with what is found afterwards. -/
theorem add_eq_find? (c : Cache α) (m : α) : some (c.add m).1 = (c.add m).2.find? (Handle.identity m) := by
  unfold add
  split
  next kept h => exact h.symm
  next h =>
    simp only [find?] at h ⊢
    rw [List.find?_append, h]
    simp [Handle.isOf_eq]

/-! ## The modules in their order -/

/-- The modules are sorted, and of each identity the first that was added is there. -/
theorem mem_sorted_ofAdded :
    m ∈ (ofAdded added).sorted ↔ (added.find? fun other => decide (Handle.identity other = Handle.identity m)) = some m := by
  rw [sorted, List.mem_mergeSort, modules_ofAdded, mem_firsts]

/-- The list goes up strictly: no two modules have the same key. -/
theorem pairwise_sorted_ofAdded (added : List α) : (ofAdded added).sorted.Pairwise fun a b =>
    (Handle.identity a).sortKey < (Handle.identity b).sortKey := by
  have hle : ∀ a b : α, (!(Handle.identity b).lt (Handle.identity a)) = true ↔
      (Handle.identity a).sortKey ≤ (Handle.identity b).sortKey := by
    intro a b
    rw [Bool.not_eq_true', ← Bool.not_eq_true, Identity.lt_iff, not_lt]
  have hsorted : (ofAdded added).sorted.Pairwise fun a b =>
      (!(Handle.identity b).lt (Handle.identity a)) = true := by
    refine List.pairwise_mergeSort (fun a b c hab hbc => ?_) (fun a b => ?_) _
    · exact (hle a c).2 (((hle a b).1 hab).trans ((hle b c).1 hbc))
    · rw [Bool.or_eq_true, hle, hle]
      exact le_total _ _
  have hnodup : ((ofAdded added).sorted.map Handle.identity).Nodup := by
    rw [sorted, ((List.mergeSort_perm _ _).map _).nodup_iff, modules_ofAdded]
    exact nodup_keys_firsts
  refine (hsorted.and (List.pairwise_map.1 hnodup)).imp fun ⟨h, hne⟩ => ?_
  exact lt_of_le_of_ne ((hle _ _).1 h) fun heq => hne (Identity.sortKey_injective heq)

/-- Additions with the same first modules make the same list. -/
theorem sorted_ofAdded_iff : (ofAdded others).sorted = (ofAdded added).sorted ↔
    ∀ i, (others.find? fun m => decide (Handle.identity m = i)) = added.find? fun m => decide (Handle.identity m = i) := by
  constructor
  · intro h i
    ext m
    have hone : ∀ ms : List α, (ms.find? fun m => decide (Handle.identity m = i)) = some m ↔
        Handle.identity m = i ∧ m ∈ (ofAdded ms).sorted := by
      intro ms
      rw [mem_sorted_ofAdded]
      constructor
      · intro hm
        obtain rfl : Handle.identity m = i := by simpa using List.find?_some hm
        exact ⟨rfl, hm⟩
      · rintro ⟨rfl, hm⟩
        exact hm
    rw [hone, hone, h]
  · intro h
    have hperm : (ofAdded others).sorted.Perm (ofAdded added).sorted := by
      refine (List.mergeSort_perm _ _).trans (.trans ?_ (List.mergeSort_perm _ _).symm)
      rw [modules_ofAdded, modules_ofAdded]
      exact perm_firsts h
    exact hperm.eq_of_pairwise (fun a b _ _ hab hba => absurd hba hab.asymm) (pairwise_sorted_ofAdded others)
      (pairwise_sorted_ofAdded added)

end Cache

/-- A cache after any additions. Under a name and a file it finds the module that was added first with the name and the
place of the file, and this is what adding answers with; there are as many modules as identities that were added; and they
are listed in strictly ascending order of the name's bytes and the components of the place, one for each identity and the
first one that was added, whatever came in between: two sequences of additions make the same list exactly if they have the
same first module for every identity. -/
theorem cache_keeps_firsts (added : List α) :
    (∀ name file, (Cache.ofAdded added).get? name file =
      added.find? fun m => (Handle.record m).name == name && (Handle.record m).file.same file) ∧
    (∀ m, some ((Cache.ofAdded added).add m).1 = (added ++ [m]).find? fun other =>
      (Handle.record other).name == (Handle.record m).name && (Handle.record other).file.same (Handle.record m).file) ∧
    (Cache.ofAdded added).size = (added.map Handle.identity).toFinset.card ∧
    (Cache.ofAdded added).sorted.Pairwise (fun a b => (Handle.identity a).sortKey < (Handle.identity b).sortKey) ∧
    (∀ m, m ∈ (Cache.ofAdded added).sorted ↔
      (added.find? fun other => decide (Handle.identity other = Handle.identity m)) = some m) ∧
    ∀ others, (Cache.ofAdded others).sorted = (Cache.ofAdded added).sorted ↔ ∀ i,
      (others.find? fun m => decide (Handle.identity m = i)) = added.find? fun m => decide (Handle.identity m = i) := by
  have hget : ∀ ms name file, (Cache.ofAdded ms).get? name file =
      (ms : List α).find? fun m => (Handle.record m).name == name && (Handle.record m).file.same file := by
    intro ms name file
    rw [Cache.get?, Cache.find?_ofAdded]
    simp only [← Handle.isOf_eq, Handle.isOf_place]
  have hadd : ∀ m, some ((Cache.ofAdded added).add m).1 = (added ++ [m]).find? fun other =>
      (Handle.record other).name == (Handle.record m).name && (Handle.record other).file.same (Handle.record m).file := by
    intro m
    rw [Cache.add_eq_find?, ← Cache.ofAdded_concat]
    exact hget (added ++ [m]) _ _
  have hsize : (Cache.ofAdded added).size = (added.map Handle.identity).toFinset.card := by
    rw [Cache.size, Cache.modules_ofAdded, length_firsts]
  exact ⟨hget added, hadd, hsize, Cache.pairwise_sorted_ofAdded added, fun _ => Cache.mem_sorted_ofAdded,
    fun _ => Cache.sorted_ofAdded_iff⟩

end ImportClosure
