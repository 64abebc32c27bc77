import ImportClosure.Proofs.Descents

/-!
# Packages and their directories

Over a tree an extension module is only asked for as a file that is no init entry (`FileTree.Suits`): that is so for paths
that are walked, and for all that is found in the tree (`FileTree.Finds.suits`), as what imports lead to and what plugin
rules declare. Then a package that is built is no extension, and stands for a directory that can be listed
(`ModuleRecord.IsHoused`), since a path that leads to an init entry leads through its directory
(`FileTree.exists_list_of_parent?`).
-/

namespace ImportClosure

/-! ## Texts of paths -/

namespace Text

/-- Fields that are joined begin with the first of them. -/
theorem prefix_join {sep : Char} {parts more : List (List Char)} : join sep parts <+: join sep (parts ++ more) := by
  induction parts with
  | nil => exact List.nil_prefix
  | cons part parts ih =>
    cases parts with
    | nil =>
      cases more with
      | nil => exact List.prefix_refl _
      | cons next more => exact List.prefix_append _ _
    | cons next parts => exact (List.prefix_append_right_inj part).2 (List.cons_prefix_cons.2 ⟨rfl, ih⟩)

end Text

namespace Path

variable {p q w : Path} {name : String} {kept : List String}

/-- A path begins with its parent. -/
theorem prefix_of_parent? (hp : p.isAbsolute = true) (hq : p.parent? = some q) : q.text.toList <+: p.text.toList := by
  obtain ⟨s, rfl⟩ := isAbsolute_iff.1 hp
  simp only [parent?, hp, fields_root, List.tail_cons, Option.map_eq_some_iff] at hq
  obtain ⟨kept, hkept, rfl⟩ := hq
  obtain ⟨more, hmore⟩ := (dropStep_some hkept).1
  have hs : s = Text.unfields '/' (kept ++ more) := by rw [hmore, Text.unfields_fields]
  simp only [hs, Text.unfields, String.toList_append, String.toList_ofList, List.map_append]
  exact (List.prefix_append_right_inj _).2 Text.prefix_join

/-- The path from the root ends with the same name. -/
theorem fileName_absolute (hw : w.isAbsolute = true) (h : p.fileName = some name) :
    (p.absolute w).fileName = some name := by
  have hlast : p.components.getLast? = some (.name name) := by
    unfold fileName at h
    split at h
    next s hs =>
      cases h
      exact hs
    next => cases h
  have hne : p.text ≠ "" := by
    intro htext
    obtain rfl : p = ⟨""⟩ := congrArg Path.mk htext
    cases hlast
  obtain ⟨front, hfront⟩ := List.getLast?_eq_some_iff.1 hlast
  have hfields : p.fields.filterMap component? =
      (front.filter fun step => step != .root && step != .here) ++ [.name name] := by
    rw [← filter_components, hfront, List.filter_append]
    rfl
  rw [fileName, components_absolute hw hne, hfields, ← List.append_assoc, List.getLast?_concat]

end Path

/-! ## Where paths lead -/

namespace FileTree

variable {t : FileTree} {p q dir : Path} {place place' : Place} {f : ModuleFile} {kind : ModuleKind} {name : String}

/-- Where a path leads to follows from the steps of the path from the root. -/
theorem foldlM_steps_absolute (ht : t.IsWellFormed) (h : t.locate p = .ok place) :
    (p.absolute t.workDir).steps.foldlM t.follow [] = .ok place := by
  have hne := text_ne_of_locate h
  have hcomp := Path.components_absolute ht.isAbsolute hne
  cases ha : p.isAbsolute with
  | true =>
    rw [Path.steps, (Path.absolute_spec ht.isAbsolute hne).2 ha, ← Path.steps]
    exact foldlM_steps_of_locate ha h
  | false =>
    have hsteps : (p.absolute t.workDir).steps = (t.workDir.fields.tail ++ p.fields).filter fun f => !Path.isIdle f := by
      obtain ⟨fs, _, _, hroot⟩ := t.workDir.exists_fields
      rw [ha, if_neg (by simp)] at hcomp
      rw [Path.steps, hcomp, List.filter_append, ← Path.steps_eq ht.isAbsolute, Path.steps, hroot ht.isAbsolute,
        List.cons_append, List.tail_cons, List.tail_cons, List.map_append, ← Path.map_text_filterMap p.fields]
    rw [hsteps]
    refine foldlM_follow_filter ?_
    unfold locate at h
    split at h
    · cases h
    · split at h
      · cases h
      · split at h
        · cases h
        · simpa only [ha, Bool.false_eq_true, if_false] using h

/-- The path from the root leads to the same place, if it leads anywhere. -/
theorem place_eq_of_locate_absolute (ht : t.IsWellFormed) (h : t.locate p = .ok place)
    (h' : t.locate (p.absolute t.workDir) = .ok place') : place' = place := by
  have habs := (Path.absolute_spec ht.isAbsolute (text_ne_of_locate h)).1
  have hsteps := foldlM_steps_absolute ht h
  rw [foldlM_steps_of_locate habs h'] at hsteps
  exact Except.ok.inj hsteps

/-- What is a file is no directory by the path from the root. -/
theorem isDir_absolute_of_isFile (ht : t.IsWellFormed) (h : t.isFile p = true) :
    t.isDir (p.absolute t.workDir) = false := by
  have hdir := isDir_of_isFile h
  rw [← Bool.not_eq_true]
  intro habs
  unfold isDir read? at habs hdir
  unfold isFile read? at h
  cases hl : t.locate p with
  | error err => simp [hl] at h
  | ok place =>
    cases hl' : t.locate (p.absolute t.workDir) with
    | error err => simp [hl'] at habs
    | ok place' =>
      rw [hl', place_eq_of_locate_absolute ht hl hl'] at habs
      rw [hl, habs] at hdir
      cases hdir

/-- A path that leads anywhere leads through its parent. -/
theorem exists_list_of_parent? (hp : p.isAbsolute = true) (hq : p.parent? = some q) (h : t.exists? p = true) :
    ∃ names, t.list q = .ok names := by
  have hprefix := Path.prefix_of_parent? hp hq
  have hqabs := Path.isAbsolute_parent? hq hp
  obtain ⟨more, hmore⟩ := hprefix
  have htext : p.text = q.text ++ String.ofList more := by
    apply String.toList_inj.1
    rw [String.toList_append, String.toList_ofList]
    exact hmore.symm
  have hfollow : ∃ place, p.fields.tail.foldlM t.follow [] = .ok place ∧ '\x00' ∉ q.text.toList ∧
      q.text.utf8ByteSize ≤ maxPathSize := by
    cases hl : t.locate p with
    | error err => simp [exists?, read?, hl] at h
    | ok place =>
      obtain ⟨hnul, hsize, hfold⟩ := (locate_eq_ok hp).1 hl
      rw [htext, String.utf8ByteSize_append] at hsize
      exact ⟨place, hfold, fun hmem => hnul (hmore ▸ List.mem_append_left _ hmem), by omega⟩
  obtain ⟨place, hplace, hnul, hsize⟩ := hfollow
  -- the fields of the parent lead to the directory that the next field is followed from
  obtain ⟨above, habove, hdir⟩ : ∃ above, q.fields.tail.foldlM t.follow [] = .ok above ∧
      t.content? above = some .directory := by
    simp only [Path.parent?, hp, Option.map_eq_some_iff] at hq
    obtain ⟨kept, hkept, rfl⟩ := hq
    obtain ⟨⟨rest, hrest⟩, c, hc⟩ := Path.dropStep_some hkept
    rw [← hrest, List.foldlM_append] at hplace
    cases hk : kept.foldlM t.follow [] with
    | error err => simp [hk, bind, Except.bind] at hplace
    | ok above =>
      refine ⟨above, ?_, ?_⟩
      · rw [Path.fields_root, List.tail_cons]
        cases kept with
        | nil =>
          cases hk
          rfl
        | cons f fs =>
          have hslash : ∀ g ∈ f :: fs, '/' ∉ g.toList := fun g hg =>
            Text.not_mem_of_mem_fields (List.mem_of_mem_tail (hrest ▸ List.mem_append_left rest hg))
          rw [Text.fields_unfields (List.cons_ne_nil f fs) hslash]
          exact hk
      · cases rest with
        | nil =>
          rw [← hrest, List.append_nil, List.self_eq_append_right] at hc
          cases hc
        | cons f fs =>
          simp only [hk, bind, Except.bind, List.foldlM_cons] at hplace
          cases hf : t.follow above f with
          | error err => simp [hf] at hplace
          | ok next => exact (follow_eq_ok hf).1
  have hlocate : t.locate q = .ok above := (locate_eq_ok hqabs).2 ⟨hnul, hsize, habove⟩
  refine ⟨(t.childNames above).mergeSort fun a b => decide (a ≤ b), ?_⟩
  simp only [list, hlocate, hdir, bind, Except.bind]

/-- What a file stands for can be listed if it is an init entry or a directory. -/
theorem exists_list_identity (hf : f.path.isAbsolute = true) (hex : t.exists? f.path = true)
    (h : t.isDir f.path = true ∨ f.isInitEntry = true) : ∃ names, t.list f.identity = .ok names := by
  unfold ModuleFile.identity
  split
  next hi =>
    obtain ⟨q, hq⟩ := Path.exists_parent? (by simpa [ModuleFile.isInitEntry] using hi)
    rw [hq]
    exact exists_list_of_parent? hf hq hex
  next hi => exact exists_list_of_isDir (h.resolve_right hi)

/-! ## What may be asked for -/

/-- A file may be asked for as a module of a kind: it is written from the root, and an extension module is neither a
directory nor an init entry. The empty path has no absolute form. -/
structure Suits (t : FileTree) (f : ModuleFile) (kind : ModuleKind) : Prop where
  isCanonical : f.path.text ≠ "" → f.path.IsCanonical t.workDir
  kind_ne : t.isDir f.path = true ∨ f.isInitEntry = true → kind ≠ .extension

/-- A file suits a kind unless it is an extension and the path leads to a directory or an init entry. -/
theorem suits_ofPath (ht : t.IsWellFormed)
    (h : t.isDir (ModuleFile.ofPath t.workDir p).path = true ∨ (ModuleFile.ofPath t.workDir p).isInitEntry = true →
      kind ≠ .extension) : t.Suits (.ofPath t.workDir p) kind := by
  refine ⟨fun hne => ?_, h⟩
  have hp : p.text ≠ "" := by
    intro htext
    rw [ModuleFile.ofPath, Path.absolute_of_text_eq htext] at hne
    exact hne htext
  exact Path.isCanonical_absolute (ht.isPlain.isCanonical ht.isAbsolute) hp

/-- A path that is walked is asked for as the module that is there. -/
theorem suits_of_moduleAt? (ht : t.IsWellFormed) {bare : String}
    (h : t.moduleAt? (ModuleFile.ofPath t.workDir p).path = some (bare, kind)) : t.Suits (.ofPath t.workDir p) kind :=
  suits_ofPath ht fun hp => kind_ne_of_moduleAt? h (hp.imp_right fun hi => by simpa [ModuleFile.isInitEntry] using hi)

section Found

variable (ht : t.IsWellFormed)

include ht

/-- The module of a directory suits its kind. -/
theorem suits_of_moduleAtDirectory? (h : t.moduleAtDirectory? dir = some (f, kind)) : t.Suits f kind := by
  unfold moduleAtDirectory? at h
  split at h
  · cases h
  · split at h <;> cases h <;> exact suits_ofPath ht fun _ => nofun

/-- What is found under a suffix suits its kind. -/
theorem suits_of_fileWithSuffix? {suffix : String} {kind' : ModuleKind} (hkind : kind' ≠ .extension)
    (h : t.fileWithSuffix? dir name suffix kind' = some (f, kind)) : t.Suits f kind := by
  obtain ⟨_, rfl, rfl⟩ := fileWithSuffix?_eq_some h
  exact suits_ofPath ht fun _ => hkind

/-- An extension module that is found is neither a directory nor an init entry. -/
theorem suits_of_extensionIn? (h : t.extensionIn? dir name = some (f, kind)) : t.Suits f kind := by
  obtain ⟨file, _, hx, rfl⟩ := exists_of_extensionIn? h
  obtain ⟨hfile, hat⟩ := Bool.and_eq_true_iff.1 hx
  obtain ⟨last, hlast, _⟩ := Option.bind_eq_some_iff.1 (beq_iff_eq.1 hat)
  have hname := Path.fileName_absolute ht.isAbsolute hlast
  refine suits_ofPath ht fun hp => absurd hp (not_or.2 ⟨?_, fun hi => ?_⟩)
  · rw [Bool.not_eq_true]
    exact isDir_absolute_of_isFile ht hfile
  · rw [ModuleFile.isInitEntry, ModuleFile.ofPath, hname, beq_iff_eq] at hi
    exact fileName_ne_of_isExtensionOf hx (hlast.trans hi)

/-- What is found under one component suits its kind. -/
theorem suits_of_locateLeaf (h : t.locateLeaf dir name = some (f, kind)) : t.Suits f kind := by
  rcases locateLeaf_eq_some h with h | ⟨_, h | h | h⟩
  · exact suits_of_moduleAtDirectory? ht h
  · exact suits_of_fileWithSuffix? ht (by decide) h
  · exact suits_of_extensionIn? ht h
  · exact suits_of_fileWithSuffix? ht (by decide) h

/-- What is found under the components of a name suits its kind. -/
theorem suits_of_locateComponents {names : List String} (h : t.locateComponents dir names = some (f, kind)) :
    t.Suits f kind := by
  induction names generalizing dir with
  | nil => cases h
  | cons name more ih =>
    unfold locateComponents at h
    split at h
    · cases h
    · split at h
      · cases h
      · exact suits_of_locateLeaf ht h
    next hcons =>
      obtain ⟨rfl, rfl⟩ := List.cons.inj hcons
      split at h
      · cases h
      · exact ih h

/-- What is found in a directory suits its kind. -/
theorem suits_of_locateIn {dotted : String} (h : t.locateIn dir dotted = some (f, kind)) : t.Suits f kind :=
  suits_of_locateComponents ht h

end Found

/-- A file is found as a module of a kind: by a name below a directory, or as the module of a directory. -/
inductive Finds (t : FileTree) (f : ModuleFile) (kind : ModuleKind) : Prop where
  | below {dir : Path} {dotted : String} (h : t.locateIn dir dotted = some (f, kind))
  | directory {dir : Path} (h : t.moduleAtDirectory? dir = some (f, kind))

/-- What is found in a tree suits its kind. -/
theorem Finds.suits (ht : t.IsWellFormed) (h : t.Finds f kind) : t.Suits f kind := by
  cases h with
  | below h => exact suits_of_locateIn ht h
  | directory h => exact suits_of_moduleAtDirectory? ht h

/-- What is found in a tree can be reached there. -/
theorem Finds.has (h : t.Finds f kind) : t.Has f := by
  cases h with
  | below h => exact has_of_locateComponents h
  | directory h =>
    obtain ⟨p, hp, hmodule⟩ := directoryModule h
    exact ⟨p, hmodule.exists?, hp⟩

end FileTree

/-! ## What imports lead to -/

/-- An edge to no file, or to one that may be asked for as a module of its kind. -/
def ImportEdge.Suits (t : FileTree) (edge : ImportEdge) : Prop :=
  ∀ file ∈ edge.file, t.Suits file edge.kind

/-- Plugins that declare imports of files that may be asked for only. -/
def Plugins.Suits (t : FileTree) (p : Plugins) : Prop :=
  ∀ m imports, p.implicitImports m = .ok imports → ∀ i ∈ imports, ∀ file ∈ i.file, t.Suits file i.kind

namespace SearchPath

variable {t : FileTree} {s : SearchPath} {i : ImportStatement} {edge : ImportEdge} {at_ : SourceRef} {name : ModuleName}
  {file : ModuleFile} {kind : ModuleKind} {importer : ModuleRecord}

/-- What the search path comes to is found in the tree. -/
theorem finds_of_locate (h : s.locate t name = some (file, kind)) : t.Finds file kind := by
  obtain ⟨_, _, h⟩ := List.exists_of_findSome?_eq_some h
  exact .below h

/-- The members that an import names are found in the tree. -/
theorem finds_of_mem_memberEdges (h : edge ∈ memberEdges t name file i at_) :
    ∀ f ∈ edge.file, t.Finds f edge.kind := by
  unfold memberEdges at h
  split at h
  · cases h
  · obtain ⟨member, _, h⟩ := List.mem_filterMap.1 h
    obtain ⟨⟨file', kind'⟩, hloc, rfl⟩ := Option.map_eq_some_iff.1 h
    rintro f ⟨⟩
    exact .below hloc

/-- What absolute imports lead to is found in the tree. -/
theorem finds_of_mem_resolveAbsolute (h : edge ∈ s.resolveAbsolute t i at_) : ∀ f ∈ edge.file, t.Finds f edge.kind := by
  dsimp only [resolveAbsolute] at h
  split at h
  · obtain rfl := List.mem_singleton.1 h
    exact nofun
  · split at h
    · obtain rfl := List.mem_singleton.1 h
      exact nofun
    next file kind hloc =>
      rcases List.mem_append.1 h with h | h
      · obtain ⟨parent, _, h⟩ := List.mem_filterMap.1 h
        obtain ⟨⟨file', kind'⟩, hloc', rfl⟩ := Option.map_eq_some_iff.1 h
        rintro f ⟨⟩
        exact finds_of_locate hloc'
      · rcases List.mem_cons.1 h with rfl | h
        · rintro f ⟨⟩
          exact finds_of_locate hloc
        · exact finds_of_mem_memberEdges h

/-- What relative imports lead to is found in the tree. -/
theorem finds_of_mem_resolveRelative (h : edge ∈ resolveRelative t importer i at_) :
    ∀ f ∈ edge.file, t.Finds f edge.kind := by
  unfold resolveRelative at h
  split at h
  · obtain rfl := List.mem_singleton.1 h
    exact nofun
  next name dir hbase =>
    split at h
    · obtain rfl := List.mem_singleton.1 h
      exact nofun
    next file kind hloc =>
      rcases List.mem_cons.1 h with rfl | h
      · rintro f ⟨⟩
        split at hloc
        · exact .directory hloc
        · exact .below hloc
      · exact finds_of_mem_memberEdges h

/-- Whatever an import statement leads to is found in the tree. -/
theorem finds_of_mem_resolve (h : edge ∈ s.resolve t importer i) : ∀ f ∈ edge.file, t.Finds f edge.kind := by
  dsimp only [resolve] at h
  split at h
  · exact finds_of_mem_resolveAbsolute h
  · exact finds_of_mem_resolveRelative h

end SearchPath

/-- What plugin rules declare is found in their tree. -/
theorem PluginRules.finds_of_mem_implicitImports {r : PluginRules} {m : ModuleRecord} {imports : List ImplicitImport}
    (h : r.plugins.implicitImports m = .ok imports) {i : ImplicitImport} (hi : i ∈ imports) :
    ∀ file ∈ i.file, r.tree.Finds file i.kind :=
  fun file hfile => SearchPath.finds_of_locate ((of_mem_implicitImports h hi).2 file hfile)

/-- Plugin rules declare imports of files that suit their kinds. -/
theorem PluginRules.suits_plugins {r : PluginRules} (ht : r.tree.IsWellFormed) : r.plugins.Suits r.tree :=
  fun _ _ h _ hi file hfile => (finds_of_mem_implicitImports h hi file hfile).suits ht

/-! ## What is built -/

/-- A package that is no extension and has a directory that can be listed. -/
structure ModuleRecord.IsHoused (t : FileTree) (m : ModuleRecord) : Prop where
  kind_ne : m.kind ≠ .extension
  isAbsolute : m.file.path.isAbsolute = true
  directory : ∃ names, t.list m.file.identity = .ok names

/-- What a tree holds of a module that was built: a package has a directory, and any source that is no bare directory can
be read. -/
structure ModuleRecord.IsBacked (t : FileTree) (m : ModuleRecord) : Prop where
  housed : m.isPackage = true → m.IsHoused t
  parses : m.kind = .source → t.isDir m.file.path = false → t.Parses m.file.path

namespace FileTree

variable {t : FileTree} {p : Path}

/-- What can be read is there. -/
theorem Parses.exists? (h : t.Parses p) : t.exists? p = true := by
  obtain ⟨text, _, htext, _⟩ := h
  unfold readText at htext
  cases hl : t.locate p with
  | error err => simp [hl, bind, Except.bind] at htext
  | ok place =>
    simp only [hl, bind, Except.bind] at htext
    cases hc : t.content? place with
    | none => simp [hc] at htext
    | some c => simp [FileTree.exists?, read?, hl, hc]

end FileTree

/-- A source that was built can be read. -/
theorem SearchPath.Yields.parses {p : SearchPath} {t : FileTree} {r : BuildRequest} {uses : List ImportEdge} {path : Path}
    (hy : p.Yields t r uses) (h : (r.target t).2 = some path) : t.Parses path := by
  unfold SearchPath.Yields at hy
  rw [h] at hy
  obtain ⟨text, statements, htext, hread, _⟩ := hy
  exact ⟨text, statements, htext, hread⟩

/-- What is built for a request that may be made is backed by the tree. -/
theorem BuildRequest.isBacked_target {p : SearchPath} {t : FileTree} {r : BuildRequest} {uses : List ImportEdge}
    (hr : t.Suits r.file r.kind) (hy : p.Yields t r uses) : (r.target t).1.IsBacked t := by
  have hparses : ∀ path, (r.target t).2 = some path → t.Parses path := fun _ => hy.parses
  unfold target at hparses ⊢
  by_cases hd : t.isDir r.file.path = true
  · have hcanonical := hr.isCanonical (FileTree.text_ne_of_exists? (FileTree.exists?_of_isDir hd))
    by_cases hi : t.hasInitEntry r.file.path = true
    · have hchild := hcanonical.child Path.isStep_initEntry
      have hinit : ModuleFile.isInitEntry ⟨r.file.path.child initEntry⟩ = true := by
        rw [ModuleFile.isInitEntry, Path.fileName_child hcanonical.1 Path.isStep_initEntry (by decide), beq_self_eq_true]
      simp only [hd, hi, if_true, ModuleFile.ofPath_of_isCanonical hchild] at hparses ⊢
      have hread := hparses _ rfl
      refine ⟨fun _ => ⟨hr.kind_ne (Or.inl hd), hchild.1, ?_⟩, fun _ _ => hread⟩
      exact FileTree.exists_list_identity hchild.1 hread.exists? (Or.inr hinit)
    · simp only [hd, hi, if_true, Bool.false_eq_true, if_false]
      refine ⟨fun _ => ⟨hr.kind_ne (Or.inl hd), hcanonical.1, ?_⟩, fun _ hno => ?_⟩
      · exact FileTree.exists_list_identity hcanonical.1 (FileTree.exists?_of_isDir hd) (Or.inl hd)
      · rw [hd] at hno
        cases hno
  · by_cases hi : r.file.isInitEntry = true
    · simp only [hd, hi, if_true, Bool.false_eq_true, if_false] at hparses ⊢
      have hread := hparses _ rfl
      have hcanonical := hr.isCanonical (FileTree.text_ne_of_exists? hread.exists?)
      refine ⟨fun _ => ⟨hr.kind_ne (Or.inr hi), hcanonical.1, ?_⟩, fun _ _ => hread⟩
      exact FileTree.exists_list_identity hcanonical.1 hread.exists? (Or.inr hi)
    · simp only [hd, hi, Bool.false_eq_true, if_false] at hparses ⊢
      exact ⟨fun hno => absurd hno Bool.false_ne_true, fun hkind _ => hparses _ (if_pos hkind)⟩

/-- What is imported by what is built is found in the tree. -/
theorem BuildRequest.finds_of_yields {p : SearchPath} {t : FileTree} {r : BuildRequest} {uses : List ImportEdge}
    (hy : p.Yields t r uses) : ∀ edge ∈ uses, ∀ file ∈ edge.file, t.Finds file edge.kind := by
  unfold SearchPath.Yields at hy
  split at hy
  · rw [hy]
    exact fun _ hedge => nomatch hedge
  · obtain ⟨text, statements, _, _, rfl⟩ := hy
    intro edge hedge
    obtain ⟨i, _, hedge⟩ := List.mem_flatMap.1 hedge
    exact SearchPath.finds_of_mem_resolve hedge

end ImportClosure
