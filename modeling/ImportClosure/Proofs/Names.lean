import ImportClosure.Proofs.Bytes
import ImportClosure.Proofs.Enclosing
import ImportClosure.Proofs.NamePatterns

/-!
# Names in packages

A name lies below a package exactly if it is a name in the package (`ModuleName.isBelow_iff_exists_child`). That can be
read off the bytes of the two texts, off their components, off the way outwards from package to package, and off the list
of the packages around the name, for every text that may stand as a name (`ModuleName.enclosing_packages_agree`).
-/

namespace ImportClosure

namespace ModuleName

variable {n p q : ModuleName}

/-! ## What lies below a package -/

/-- The text of a package with a dot and something behind it is that of a name in the package. -/
theorem eq_child_of_toList {more : List Char} (h : n.text.toList = p.text.toList ++ '.' :: more) :
    n = p.child (String.ofList more) := by
  have htext : n.text = p.text ++ "." ++ String.ofList more := String.toList_inj.1 (by simp [h])
  cases n
  exact congrArg mk htext

/-- A name lies below a package if it is a name in the package. -/
theorem isBelow_iff_exists_child : n.isBelow p.text = true ↔ ∃ x, n = p.child x := by
  rw [isBelow, Text.startsWith, List.isPrefixOf_iff_prefix, String.toList_append]
  constructor
  · rintro ⟨more, hmore⟩
    exact ⟨String.ofList more, eq_child_of_toList (by simp [← hmore])⟩
  · rintro ⟨x, rfl⟩
    exact ⟨x.toList, by simp [child]⟩

/-- Components behind those of a package make a name in the package. -/
theorem eq_child_of_components {rest : List String} (hne : rest ≠ []) (h : n.components = p.components ++ rest) :
    n = p.child (Text.unfields '.' rest) := by
  refine eq_of_components ?_
  have hdot : ∀ f ∈ rest, '.' ∉ f.toList := fun f hf =>
    Text.not_mem_of_mem_fields (s := n.text) (h ▸ List.mem_append_right _ hf : f ∈ n.components)
  rw [components_child, Text.fields_unfields hne hdot, h]

/-- Such a name has components behind those of the package. -/
theorem exists_components_of_isBelow (h : n.isBelow p.text = true) :
    ∃ rest, rest ≠ [] ∧ n.components = p.components ++ rest := by
  obtain ⟨x, rfl⟩ := isBelow_iff_exists_child.1 h
  exact ⟨Text.fields '.' x, components_ne_nil ⟨x⟩, components_child p x⟩

/-- A name lies below a package if the components of the package are the first ones of the name, and not all of them. -/
theorem isBelow_iff_prefix :
    n.isBelow p.text = true ↔ p.components <+: n.components ∧ p.components ≠ n.components := by
  constructor
  · intro h
    obtain ⟨rest, hne, hrest⟩ := exists_components_of_isBelow h
    refine ⟨⟨rest, hrest.symm⟩, fun heq => hne ?_⟩
    exact List.append_right_eq_self.1 (hrest.symm.trans heq.symm)
  · rintro ⟨⟨rest, hrest⟩, hne⟩
    have hrest_ne : rest ≠ [] := by
      rintro rfl
      exact hne (by rw [← hrest, List.append_nil])
    exact isBelow_iff_exists_child.2 ⟨_, eq_child_of_components hrest_ne hrest.symm⟩

/-- The same test made on bytes: the longer name begins with the bytes of the package, and the next one is a dot. -/
theorem isBelow_iff_bytes : n.isBelow p.text = true ↔
    (Text.bytes p.text).length < (Text.bytes n.text).length ∧ Text.bytes p.text <+: Text.bytes n.text ∧
      (Text.bytes n.text)[(Text.bytes p.text).length]? = some '.'.toNat := by
  rw [isBelow_iff_exists_child]
  constructor
  · rintro ⟨x, rfl⟩
    have hbytes : Text.bytes (p.child x).text = Text.bytes p.text ++ ('.'.toNat :: Text.bytes x) := by
      have hdot : Text.bytes "." = ['.'.toNat] := by simp [Text.bytes_eq_flatMap, Text.encode_eq]
      rw [child, Text.bytes_append, Text.bytes_append, hdot, List.append_assoc, List.singleton_append]
    rw [hbytes]
    exact ⟨by simp, List.prefix_append _ _, by simp⟩
  · rintro ⟨-, hprefix, hnext⟩
    -- bytes of a whole text end between two characters, so the next byte begins the next character
    obtain ⟨more, hmore⟩ := Text.bytes_prefix_iff.1 hprefix
    have hbytes : Text.bytes n.text = Text.bytes p.text ++ more.flatMap Text.encode := by
      rw [Text.bytes_eq_flatMap, ← hmore, List.flatMap_append, ← Text.bytes_eq_flatMap]
    rw [hbytes, List.getElem?_append_right (Nat.le_refl _), Nat.sub_self] at hnext
    cases more with
    | nil => cases hnext
    | cons c more =>
      obtain ⟨b, bs, hb⟩ := List.exists_cons_of_ne_nil (Text.encode_ne_nil c)
      have hdot : c = '.' := Text.head?_encode_eq_dot.1 (by simpa [hb] using hnext)
      exact ⟨String.ofList more, eq_child_of_toList (by rw [← hmore, hdot])⟩

/-! ## The way outwards -/

/-- Some steps outwards lead from a name to each package that it lies below. -/
theorem transGen_of_isBelow (h : n.isBelow p.text = true) :
    Relation.TransGen (fun inner outer => inner.package? = some outer) n p := by
  obtain ⟨rest, hne, hrest⟩ := exists_components_of_isBelow h
  clear h
  induction rest generalizing p with
  | nil => exact absurd rfl hne
  | cons next more ih =>
    cases more with
    | nil => exact .single (package?_eq_some_iff.2 ⟨next, hrest⟩)
    | cons other more =>
      -- the last step is made from the package with one component more
      have hdot : '.' ∉ next.toList := Text.not_mem_of_mem_fields (s := n.text)
        (hrest ▸ List.mem_append_right _ List.mem_cons_self : next ∈ n.components)
      have hinner : n.components = (p.child next).components ++ other :: more := by
        rw [hrest, components_child, Text.fields_of_not_mem hdot, List.append_assoc, List.singleton_append]
      exact .tail (ih (List.cons_ne_nil _ _) hinner) (package?_child hdot)

/-- What steps outwards lead to is among the packages around a name. -/
theorem mem_parentPackages_of_transGen (h : Relation.TransGen (fun inner outer => inner.package? = some outer) n p) :
    p ∈ n.parentPackages := by
  induction h using Relation.TransGen.head_induction_on with
  | single h =>
    rw [parentPackages_of_package? h]
    exact List.mem_concat_self
  | head h _ ih =>
    rw [parentPackages_of_package? h]
    exact List.mem_append_left _ ih

/-- A name lies below its parent packages. -/
theorem isBelow_of_mem_parentPackages (h : p ∈ n.parentPackages) : n.isBelow p.text = true :=
  isBelow_iff_prefix.2 ⟨prefix_of_mem_parentPackages h, fun heq =>
    (length_lt_of_mem_parentPackages h).ne (congrArg List.length heq)⟩

/-! ## The packages in their order -/

/-- A name that lies below another is longer. -/
theorem length_lt_of_isBelow (h : n.isBelow p.text = true) : p.text.length < n.text.length := by
  obtain ⟨x, rfl⟩ := isBelow_iff_exists_child.1 h
  simp only [child, String.length_append]
  exact Nat.lt_of_lt_of_le (Nat.lt_succ_self _) (Nat.le_add_right _ _)

/-- The packages around a name come outermost first: each one lies in those in front of it. -/
theorem pairwise_parentPackages (n : ModuleName) :
    n.parentPackages.Pairwise fun outer inner => inner.isBelow outer.text = true := by
  cases hn : n.package? with
  | none =>
    rw [parentPackages_of_none hn]
    exact .nil
  | some package =>
    rw [parentPackages_of_package? hn, List.pairwise_append]
    refine ⟨pairwise_parentPackages package, List.pairwise_singleton _ _, fun outer houter inner hinner => ?_⟩
    rw [List.mem_singleton.1 hinner]
    exact isBelow_of_mem_parentPackages houter
termination_by n.components.length
decreasing_by
  obtain ⟨last, hlast⟩ := package?_eq_some_iff.1 hn
  simp [hlast]

/-- A name and its package have the same top level. -/
theorem topLevel_package? (h : n.package? = some p) : p.topLevel = n.topLevel := by
  obtain ⟨last, hlast⟩ := package?_eq_some_iff.1 h
  obtain ⟨first, more, hp⟩ := List.exists_cons_of_ne_nil p.components_ne_nil
  simp [topLevel, hlast, hp]

/-- A name outside of any package is one component. -/
theorem topLevel_of_none (h : n.package? = none) : n.topLevel = n.text := by
  have hone : n.components = [n.topLevel] := by
    unfold package? at h
    rw [topLevel]
    split at h
    next hnil => exact absurd hnil n.components_ne_nil
    next x hx => rw [hx]; rfl
    · cases h
  have htext := Text.unfields_fields '.' n.text
  rw [show Text.fields '.' n.text = [n.topLevel] from hone] at htext
  simpa [Text.unfields, Text.join] using htext

/-- The outermost package around a name goes by its first component. -/
theorem head_parentPackages (n : ModuleName) : (n.parentPackages.head?.getD n).text = n.topLevel := by
  cases hn : n.package? with
  | none =>
    rw [parentPackages_of_none hn, topLevel_of_none hn]
    rfl
  | some package =>
    rw [parentPackages_of_package? hn, List.head?_append, ← topLevel_package? hn, ← head_parentPackages package]
    cases package.parentPackages.head? <;> rfl
termination_by n.components.length
decreasing_by
  obtain ⟨last, hlast⟩ := package?_eq_some_iff.1 hn
  simp [hlast]

/-- The packages around a name, from every side. That a name lies below another can be told from its bytes, from its
components, from the way outwards and from the list of the packages around it; this list goes from the shortest name to the
longest one and begins with the first component, and a name is its last component in its package. -/
theorem enclosing_packages_agree (n p : ModuleName) :
    (n.isBelow p.text = true ↔ (Text.bytes p.text).length < (Text.bytes n.text).length ∧
      Text.bytes p.text <+: Text.bytes n.text ∧
        (Text.bytes n.text)[(Text.bytes p.text).length]? = some '.'.toNat) ∧
    (n.isBelow p.text = true ↔ p.components <+: n.components ∧ p.components ≠ n.components) ∧
    (n.isBelow p.text = true ↔ Relation.TransGen (fun inner outer => inner.package? = some outer) n p) ∧
    (n.isBelow p.text = true ↔ p ∈ n.parentPackages) ∧
    n.parentPackages.Nodup ∧ n.parentPackages.Pairwise (fun p q => p.text.length < q.text.length) ∧
    (n.parentPackages.head?.getD n).text = n.topLevel ∧
    ∀ package, n.package? = some package → package.child n.basename = n := by
  have hlength : n.parentPackages.Pairwise fun p q => p.text.length < q.text.length :=
    n.pairwise_parentPackages.imp length_lt_of_isBelow
  have hway : n.isBelow p.text = true ↔ Relation.TransGen (fun inner outer => inner.package? = some outer) n p :=
    ⟨transGen_of_isBelow, fun h => isBelow_of_mem_parentPackages (mem_parentPackages_of_transGen h)⟩
  have hlist : n.isBelow p.text = true ↔ p ∈ n.parentPackages :=
    ⟨fun h => mem_parentPackages_of_transGen (hway.1 h), isBelow_of_mem_parentPackages⟩
  have hnodup : n.parentPackages.Nodup := hlength.imp fun h heq => h.ne (congrArg (fun name => name.text.length) heq)
  exact ⟨isBelow_iff_bytes, isBelow_iff_prefix, hway, hlist, hnodup, hlength, n.head_parentPackages,
    fun _ => child_basename⟩

/-- A name with empty components and letters of two bytes, below a package that ends with a dot. -/
theorem enclosing_packages_agree_umlauts : (⟨"ä."⟩ : ModuleName) ∈ (⟨"ä..ü."⟩ : ModuleName).parentPackages ∧
    (⟨"ä..ü"⟩ : ModuleName).child (⟨"ä..ü."⟩ : ModuleName).basename = ⟨"ä..ü."⟩ :=
  have hagree := enclosing_packages_agree ⟨"ä..ü."⟩ ⟨"ä."⟩
  ⟨hagree.2.2.2.1.1 (by decide), hagree.2.2.2.2.2.2.2 ⟨"ä..ü"⟩ (by decide)⟩

end ModuleName

end ImportClosure
