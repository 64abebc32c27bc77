import ImportClosure.Text.Fields

/-!
# Fields put together

Cutting a text at a separator is a homomorphism: a separator in the middle cuts it into the fields on its left and those
on its right. So fields without the separator come back after they were joined.
-/

namespace ImportClosure.Text

/-! ## Lists of characters -/

/-- A separator between two texts cuts them apart. -/
theorem split_append (sep : Char) (a b : List Char) : split sep (a ++ sep :: b) = split sep a ++ split sep b := by
  induction a with
  | nil => simp [split]
  | cons c a ih =>
    by_cases hc : c = sep
    · simp [split, hc, ih]
    · simp only [List.cons_append, split, hc, if_false, ih]
      rcases hs : split sep a with _ | ⟨first, more⟩
      · exact absurd hs (split_ne_nil sep a)
      · rfl

/-- A text without a separator is one field. -/
theorem split_of_not_mem {sep : Char} {s : List Char} (h : sep ∉ s) : split sep s = [s] := by
  induction s with
  | nil => rfl
  | cons c s ih =>
    rw [List.mem_cons, not_or] at h
    simp [split, Ne.symm h.1, ih h.2]

/-- No field holds the separator. -/
theorem not_mem_of_mem_split {sep : Char} {s f : List Char} (h : f ∈ split sep s) : sep ∉ f := by
  induction s generalizing f with
  | nil =>
    obtain rfl : f = [] := by simpa [split] using h
    simp
  | cons c s ih =>
    by_cases hc : c = sep
    · simp only [split, hc, if_true, List.mem_cons] at h
      rcases h with rfl | h
      · simp
      · exact ih h
    · simp only [split, hc, if_false] at h
      rcases hs : split sep s with _ | ⟨first, more⟩
      · exact absurd hs (split_ne_nil sep s)
      · rw [hs] at h ih
        rcases List.mem_cons.1 h with rfl | h
        · simpa [Ne.symm hc] using ih List.mem_cons_self
        · exact ih (List.mem_cons_of_mem first h)

/-- Every character but the separator stands in a field. -/
theorem exists_mem_split {sep c : Char} {s : List Char} (hc : c ∈ s) (hne : c ≠ sep) : ∃ f ∈ split sep s, c ∈ f := by
  induction s with
  | nil => cases hc
  | cons d s ih =>
    by_cases hd : d = sep
    · obtain ⟨f, hf, hcf⟩ := ih ((List.mem_cons.1 hc).resolve_left fun heq => hne (heq.trans hd))
      exact ⟨f, by simp [split, hd, hf], hcf⟩
    · simp only [split, hd, if_false]
      rcases hs : split sep s with _ | ⟨first, more⟩
      · exact absurd hs (split_ne_nil sep s)
      · rcases List.mem_cons.1 hc with rfl | hc
        · exact ⟨c :: first, List.mem_cons_self, List.mem_cons_self⟩
        · obtain ⟨f, hf, hcf⟩ := ih hc
          rcases List.mem_cons.1 (hs ▸ hf) with rfl | hf
          · exact ⟨d :: f, List.mem_cons_self, List.mem_cons_of_mem d hcf⟩
          · exact ⟨f, List.mem_cons_of_mem _ hf, hcf⟩

/-- The first field is what stands before the first separator. -/
theorem exists_split (sep : Char) (s : List Char) : ∃ more, split sep s = s.takeWhile (· != sep) :: more := by
  induction s with
  | nil => exact ⟨[], rfl⟩
  | cons c s ih =>
    obtain ⟨more, hmore⟩ := ih
    by_cases hc : c = sep
    · exact ⟨split sep s, by simp [split, hc]⟩
    · exact ⟨more, by simp [split, hc, hmore]⟩

/-- Fields without the separator come back after they were joined. -/
theorem split_join {sep : Char} {parts : List (List Char)} (hne : parts ≠ []) (h : ∀ f ∈ parts, sep ∉ f) :
    split sep (join sep parts) = parts := by
  induction parts with
  | nil => exact absurd rfl hne
  | cons f parts ih =>
    have hf : split sep f = [f] := split_of_not_mem (h f List.mem_cons_self)
    cases parts with
    | nil => exact hf
    | cons g more =>
      rw [join, split_append, hf, ih (by simp) fun g hg => h g (List.mem_cons_of_mem f hg)]
      rfl

/-- A last field stands behind a separator. -/
theorem join_concat {sep : Char} {parts : List (List Char)} (hne : parts ≠ []) (f : List Char) :
    join sep (parts ++ [f]) = join sep parts ++ sep :: f := by
  induction parts with
  | nil => exact absurd rfl hne
  | cons g parts ih =>
    cases parts with
    | nil => rfl
    | cons h more =>
      have hmore := ih (by simp)
      simp only [List.cons_append, join, List.append_assoc] at hmore ⊢
      rw [hmore]

/-- A field stands in the joined text. -/
theorem sublist_join {sep : Char} {f : List Char} {parts : List (List Char)} (hf : f ∈ parts) :
    f.Sublist (join sep parts) := by
  induction parts with
  | nil => cases hf
  | cons g parts ih =>
    cases parts with
    | nil =>
      obtain rfl := List.mem_singleton.1 hf
      exact List.Sublist.refl _
    | cons h more =>
      rw [join]
      rcases List.mem_cons.1 hf with rfl | hf
      · exact List.sublist_append_left _ _
      · exact ((ih hf).trans (List.sublist_cons_self _ _)).trans (List.sublist_append_right _ _)

/-! ## Strings -/

/-- A separator between two strings cuts them apart. -/
theorem fields_append {sep : Char} {d : String} (hd : d.toList = [sep]) (a b : String) :
    fields sep (a ++ d ++ b) = fields sep a ++ fields sep b := by
  simp [fields, hd, split_append]

/-- A string without a separator is one field. -/
theorem fields_of_not_mem {sep : Char} {s : String} (h : sep ∉ s.toList) : fields sep s = [s] := by
  simp [fields, split_of_not_mem h]

/-- The first field is what stands before the first separator. -/
theorem exists_fields (sep : Char) (s : String) :
    ∃ more, fields sep s = String.ofList (s.toList.takeWhile (· != sep)) :: more := by
  obtain ⟨more, h⟩ := exists_split sep s.toList
  exact ⟨more.map String.ofList, by rw [fields, h, List.map_cons]⟩

/-- No field holds the separator. -/
theorem not_mem_of_mem_fields {sep : Char} {s f : String} (h : f ∈ fields sep s) : sep ∉ f.toList := by
  obtain ⟨g, hg, rfl⟩ := List.mem_map.1 h
  simpa using not_mem_of_mem_split hg

/-- A field stands in the string. -/
theorem sublist_of_mem_fields {sep : Char} {s f : String} (hf : f ∈ fields sep s) : f.toList.Sublist s.toList := by
  obtain ⟨g, hg, rfl⟩ := List.mem_map.1 hf
  have hjoin : g.Sublist (join sep (split sep s.toList)) := sublist_join hg
  rwa [join_split, ← String.toList_ofList (l := g)] at hjoin

/-- A field holds nothing but what the string holds. -/
theorem mem_of_mem_fields {sep c : Char} {s f : String} (hf : f ∈ fields sep s) (hc : c ∈ f.toList) : c ∈ s.toList :=
  (sublist_of_mem_fields hf).subset hc

/-- Every character of a string but the separator stands in a field. -/
theorem exists_mem_fields {sep c : Char} {s : String} (hc : c ∈ s.toList) (hne : c ≠ sep) : ∃ f ∈ fields sep s, c ∈ f.toList := by
  obtain ⟨f, hf, hcf⟩ := exists_mem_split hc hne
  exact ⟨String.ofList f, List.mem_map_of_mem hf, by rwa [String.toList_ofList]⟩

/-- Fields without the separator come back after they were joined. -/
theorem fields_unfields {sep : Char} {parts : List String} (hne : parts ≠ []) (h : ∀ f ∈ parts, sep ∉ f.toList) :
    fields sep (unfields sep parts) = parts := by
  have hs : split sep (join sep (parts.map String.toList)) = parts.map String.toList := by
    refine split_join (by simpa using hne) fun f hf => ?_
    obtain ⟨s, hs, rfl⟩ := List.mem_map.1 hf
    exact h s hs
  simp [fields, unfields, hs, Function.comp_def]

/-- A string is put together from its fields. -/
theorem unfields_fields (sep : Char) (s : String) : unfields sep (fields sep s) = s := by
  simp [fields, unfields, Function.comp_def]

/-- A string ends with a separator exactly if there is nothing in its last field, and another field in front of it. -/
theorem endsWith_iff {sep : Char} {d s : String} (hd : d.toList = [sep]) :
    endsWith s d = true ↔ ∃ front, front ≠ [] ∧ fields sep s = front ++ [""] := by
  rw [endsWith, List.isSuffixOf_iff_suffix, hd]
  constructor
  · rintro ⟨cs, hcs⟩
    refine ⟨fields sep (String.ofList cs), by simp [fields, split_ne_nil], ?_⟩
    have hs : s = String.ofList cs ++ d ++ "" := String.toList_inj.1 (by simp [← hcs, hd])
    rw [hs, fields_append hd]
    rfl
  · rintro ⟨front, hne, hf⟩
    refine ⟨join sep (front.map String.toList), ?_⟩
    have hs := congrArg String.toList (unfields_fields sep s)
    rw [← hs, hf, unfields, String.toList_ofList, List.map_append]
    exact (join_concat (by simpa using hne) []).symm

end ImportClosure.Text
