import ImportClosure.Proofs.Agreement
import ImportClosure.Proofs.Enclosing

/-!
# Modules directly in their packages

Each package around a name is looked up by itself, over all directories that are searched, so the module need not lie in
the directory of the package that is found: it does exactly if both are found from one directory
(`holdsDirectly_iff_together`). A package may be spread over several directories, each with modules of its own.
-/

namespace ImportClosure

/-! ## Ways down -/

namespace Path

variable {w dir : Path} {names : List String} {x : String}

/-- Where names lead from a directory, one after the other. -/
def down (dir : Path) (names : List String) : Path :=
  names.foldl child dir

/-- The last step down leads to a child. -/
theorem down_concat : dir.down (names ++ [x]) = (dir.down names).child x := by
  simp [down]

/-- Steps down from a canonical directory lead to a canonical path. -/
theorem IsCanonical.down (h : dir.IsCanonical w) (hn : ∀ name ∈ names, IsStep name ∧ name ≠ "..") :
    (dir.down names).IsCanonical w := by
  induction names generalizing dir with
  | nil => exact h
  | cons name names ih =>
    exact ih (h.child (hn name List.mem_cons_self).1) fun other hmem => hn other (List.mem_cons_of_mem _ hmem)

/-- Steps down add their names to the components. -/
theorem components_down (h : dir.isAbsolute = true) (hn : ∀ name ∈ names, IsStep name ∧ name ≠ "..") :
    (dir.down names).components = dir.components ++ names.map .name := by
  induction names generalizing dir with
  | nil => simp [Path.down]
  | cons name names ih =>
    obtain ⟨hstep, hparent⟩ := hn name List.mem_cons_self
    have hrest := ih (isAbsolute_child h name) fun other hmem => hn other (List.mem_cons_of_mem _ hmem)
    rw [components_child_eq h hstep hparent, List.append_assoc] at hrest
    exact hrest

/-- The parent of a name in a directory that a name leads to is that directory. -/
theorem parent?_child_child (h : dir.isAbsolute = true) (hx : IsStep x) {name : String} (hn : IsStep name) :
    ((dir.child x).child name).parent? = some (dir.child x) := by
  refine parent?_child (isAbsolute_child h x) (fun field hfield => ?_) hn
  rw [fields_child h hx.1, List.getLast?_concat] at hfield
  cases hfield
  exact hx.2

end Path

/-! ## One name in a directory -/

/-- A file holds the module of a name in a directory. -/
inductive FileTree.ModuleFileOf (t : FileTree) (dir : Path) (x : String) : String → Prop where
  | source (h : t.isFile (dir.child (x ++ sourceSuffix)) = true) : ModuleFileOf t dir x (x ++ sourceSuffix)
  | bytecode (h : t.isFile (dir.child (x ++ bytecodeSuffix)) = true) : ModuleFileOf t dir x (x ++ bytecodeSuffix)
  | extension {file : String} (hl : t.Lists dir file) (h : t.isExtensionOf x (dir.child file) = true) :
      ModuleFileOf t dir x file

namespace FileTree

variable {t : FileTree} {dir : Path} {x file : String} {f : ModuleFile} {kind : ModuleKind} {names : List String}

/-- A module file is a file. -/
theorem ModuleFileOf.isFile (h : t.ModuleFileOf dir x file) : t.isFile (dir.child file) = true := by
  cases h with
  | source h => exact h
  | bytecode h => exact h
  | extension _ h => exact (Bool.and_eq_true_iff.1 h).1

/-- Such a file goes by a name of its own, which is not that of an init entry. -/
theorem ModuleFileOf.step (ht : t.IsWellFormed) (hd : dir.isAbsolute = true) (hslash : '/' ∉ x.toList)
    (hinit : x ≠ "__init__") (h : t.ModuleFileOf dir x file) : (Path.IsStep file ∧ file ≠ "..") ∧ file ≠ initEntry := by
  cases h with
  | source =>
    refine ⟨Path.isStep_append (Or.inl rfl) hslash, fun heq => hinit (String.toList_inj.1 ?_)⟩
    have hlist : x.toList ++ ['.', 'p', 'y'] = "__init__".toList ++ ['.', 'p', 'y'] := by
      simpa [sourceSuffix, initEntry] using congrArg String.toList heq
    exact List.append_cancel_right hlist
  | bytecode =>
    refine ⟨Path.isStep_append (Or.inr rfl) hslash, fun heq => ?_⟩
    have hlast := congrArg (fun s : String => s.toList.getLast?) heq
    simp [bytecodeSuffix, initEntry] at hlast
  | extension hl h =>
    obtain ⟨hstep, hparent⟩ := ht.of_lists hl
    refine ⟨⟨hstep, hparent⟩, fun heq => fileName_ne_of_isExtensionOf h ?_⟩
    rw [Path.fileName_child hd hstep hparent, heq]

/-- What is found for a name in a directory is the module of the directory of that name, or a file beside it. -/
theorem of_locateLeaf (h : t.locateLeaf dir x = some (f, kind)) :
    t.moduleAtDirectory? (dir.child x) = some (f, kind) ∨
      t.isRealPackage (dir.child x) = false ∧
        ∃ file, t.ModuleFileOf dir x file ∧ f = .ofPath t.workDir (dir.child file) := by
  rcases locateLeaf_eq_some h with h | ⟨hreal, h | h | h⟩
  · exact Or.inl h
  · obtain ⟨hfile, hf, _⟩ := fileWithSuffix?_eq_some h
    exact Or.inr ⟨hreal, _, .source hfile, hf⟩
  · obtain ⟨file, hl, hof, hf⟩ := exists_of_extensionIn? h
    exact Or.inr ⟨hreal, file, .extension hl hof, hf⟩
  · obtain ⟨hfile, hf, _⟩ := fileWithSuffix?_eq_some h
    exact Or.inr ⟨hreal, _, .bytecode hfile, hf⟩

/-- The module of a package directory stands for this directory. -/
theorem packageDir?_of_moduleAtDirectory? (hd : dir.IsCanonical t.workDir) (hx : Path.IsStep x)
    (h : t.moduleAtDirectory? (dir.child x) = some (f, kind)) :
    SearchPath.packageDir? t f = some (dir.child x) ∧ t.isPackage (dir.child x) = true := by
  have hp : t.isPackage (dir.child x) = true := by
    unfold moduleAtDirectory? at h
    split at h
    · cases h
    next hp => simpa using hp
  refine ⟨?_, hp⟩
  obtain ⟨p, rfl, hmodule⟩ := directoryModule h
  have hcanonical := hd.child hx
  cases hmodule with
  | entry =>
    rw [ModuleFile.ofPath_of_isCanonical (hcanonical.child Path.isStep_initEntry), SearchPath.packageDir?, if_pos]
    · exact Path.parent?_child_child hd.1 hx Path.isStep_initEntry
    · rw [ModuleFile.isInitEntry, Path.fileName_child hcanonical.1 Path.isStep_initEntry (by decide), beq_self_eq_true]
  | bare hdir hn =>
    rw [ModuleFile.ofPath_of_isCanonical hcanonical, SearchPath.packageDir?, if_neg, if_pos hdir]
    rwa [ModuleFile.isInitEntry, beq_iff_eq]

/-- A file beside it stands for no directory. -/
theorem ModuleFileOf.packageDir? (ht : t.IsWellFormed) (hd : dir.IsCanonical t.workDir) (hslash : '/' ∉ x.toList)
    (hinit : x ≠ "__init__") (h : t.ModuleFileOf dir x file) :
    SearchPath.packageDir? t (.ofPath t.workDir (dir.child file)) = none := by
  obtain ⟨⟨hstep, hparent⟩, hne⟩ := h.step ht hd.1 hslash hinit
  rw [ModuleFile.ofPath_of_isCanonical (hd.child hstep), SearchPath.packageDir?, if_neg, if_neg]
  · rw [isDir_of_isFile h.isFile]
    exact Bool.false_ne_true
  · rw [ModuleFile.isInitEntry, Path.fileName_child hd.1 hstep hparent, beq_iff_eq]
    exact fun heq => hne (Option.some.inj heq)

/-- What is found for a name in a directory lies directly in the directory. -/
theorem exists_place_of_locateLeaf (ht : t.IsWellFormed) (hd : dir.isAbsolute = true) (hne : x ≠ "")
    (hdot : '.' ∉ x.toList) (hslash : '/' ∉ x.toList) (hinit : x ≠ "__init__")
    (h : t.locateLeaf dir x = some (f, kind)) : ∃ name, f.place = dir.components ++ [.name name] := by
  rcases of_locateLeaf h with h | ⟨_, file, hfile, rfl⟩
  · obtain ⟨p, rfl, hp⟩ := directoryModule h
    obtain ⟨hstep, hparent⟩ := Path.isStep_of_not_mem hne hdot hslash
    have hplace := hp.place_eq ht.isAbsolute (Path.isAbsolute_child hd x)
    exact ⟨x, hplace.trans (Path.components_child_eq hd hstep hparent)⟩
  · obtain ⟨⟨hstep, hparent⟩, hentry⟩ := hfile.step ht hd hslash hinit
    exact ⟨file, ModuleFile.place_child ht.isAbsolute hd hstep hparent hentry⟩

/-! ## Dotted names -/

/-- No part of a name that is found is empty. -/
theorem ne_of_locateComponents {found : Located} (h : t.locateComponents dir names = some found) :
    ∀ name ∈ names, name ≠ "" := by
  induction names generalizing dir with
  | nil => cases h
  | cons name more ih =>
    cases more with
    | nil =>
      rw [locateComponents] at h
      split at h
      · cases h
      next hne => simpa using hne
    | cons next more =>
      rw [locateComponents.eq_3 t dir name _ (by simp)] at h
      split at h
      · cases h
      next hne =>
        have hname : name ≠ "" := fun heq => hne (by simp [heq])
        exact List.forall_mem_cons.2 ⟨hname, ih h⟩

/-- The last part of a name is looked up in the directory that the others lead to. -/
theorem locateLeaf_of_locateComponents {found : Located} (h : t.locateComponents dir (names ++ [x]) = some found) :
    t.locateLeaf (dir.down names) x = some found ∧ (names ≠ [] → t.isPackage (dir.down names) = true) := by
  induction names generalizing dir with
  | nil =>
    rw [List.nil_append, locateComponents] at h
    split at h
    · cases h
    · exact ⟨h, fun hne => absurd rfl hne⟩
  | cons name more ih =>
    rw [List.cons_append, locateComponents.eq_3 t dir name _ (by simp)] at h
    split at h
    · cases h
    next hname =>
      simp only [Bool.or_eq_true, beq_iff_eq, Bool.not_eq_true', not_or, Bool.not_eq_false] at hname
      obtain ⟨hleaf, hpackage⟩ := ih h
      refine ⟨hleaf, fun _ => ?_⟩
      cases more with
      | nil => exact hname.2
      | cons next more => exact hpackage (List.cons_ne_nil _ _)

/-- Behind a name that is found one more part is looked up in its directory, if that is a package. -/
theorem locateComponents_concat {found : Located} (h : t.locateComponents dir names = some found)
    (hp : t.isPackage (dir.down names) = true) (hx : x ≠ "") :
    t.locateComponents dir (names ++ [x]) = t.locateLeaf (dir.down names) x := by
  induction names generalizing dir with
  | nil => cases h
  | cons name more ih =>
    have hname := ne_of_locateComponents h name List.mem_cons_self
    cases more with
    | nil =>
      rw [List.cons_append, List.nil_append, locateComponents.eq_3 t dir name _ (by simp), if_neg]
      · rw [locateComponents, if_neg (by simpa using hx)]
        rfl
      · have hpackage : t.isPackage (dir.child name) = true := hp
        simp [hname, hpackage]
    | cons next more =>
      rw [locateComponents.eq_3 t dir name _ (by simp)] at h
      rw [List.cons_append, locateComponents.eq_3 t dir name _ (by simp)]
      split at h
      · cases h
      next hfirst =>
        rw [if_neg hfirst]
        exact ih h hp

end FileTree

/-! ## Packages and what is in them -/

/-- The parts of the name of a package are parts of every name in it. -/
theorem ModuleName.mem_of_package? {name package : ModuleName} (h : name.package? = some package) {word : String}
    (hword : word ∈ package.components) : word ∈ name.components := by
  obtain ⟨last, hcomp⟩ := package?_eq_some_iff.1 h
  rw [hcomp]
  exact List.mem_append_left _ hword

namespace FileTree

/-- Looked up from a directory, a name comes to a file. -/
def FindsAt (t : FileTree) (dir : Path) (name : ModuleName) (f : ModuleFile) : Prop :=
  ∃ kind, t.locateIn dir name.text = some (f, kind)

/-- The first file stands for a package, and the second lies directly in its directory. -/
def HoldsDirectly (t : FileTree) (package f : ModuleFile) : Prop :=
  ∃ dir name, SearchPath.packageDir? t package = some dir ∧ f.place = dir.components ++ [.name name]

/-- Where a name leads from a directory there is a directory without init entry, and beside it a module file of its
name. -/
def Shadows (t : FileTree) (dir : Path) (name : ModuleName) : Prop :=
  ∃ front x file, name.components = front ++ [x] ∧ t.isDir ((dir.down front).child x) = true ∧
    t.isRealPackage ((dir.down front).child x) = false ∧ t.ModuleFileOf (dir.down front) x file

variable {t : FileTree} {dir : Path} {name outer inner : ModuleName} {f g : ModuleFile}
  {words : List String}

/-- The parts of a name that is found are steps. -/
theorem FindsAt.steps (h : t.FindsAt dir name f) (hslash : ∀ word ∈ name.components, '/' ∉ word.toList) :
    ∀ word ∈ name.components, Path.IsStep word ∧ word ≠ ".." := by
  intro word hword
  obtain ⟨kind, hfound⟩ := h
  exact Path.isStep_of_not_mem (ne_of_locateComponents hfound word hword) (Text.not_mem_of_mem_fields hword)
    (hslash word hword)

section Found

variable (ht : t.IsWellFormed) (hd : dir.IsCanonical t.workDir)
  (hwords : ∀ word ∈ name.components, '/' ∉ word.toList ∧ word ≠ "__init__") (h : t.FindsAt dir name f)

include ht hd hwords h

/-- What is found stands for the directory that the name leads to, or for none since a file comes before it. -/
theorem FindsAt.packageDir? :
    (SearchPath.packageDir? t f = some (dir.down name.components) ∧ t.isPackage (dir.down name.components) = true) ∨
      SearchPath.packageDir? t f = none ∧ (t.isDir (dir.down name.components) = true → t.Shadows dir name) := by
  have hsteps := h.steps fun word hword => (hwords word hword).1
  obtain ⟨kind, hfound⟩ := h
  obtain ⟨front, x, hcomp⟩ := name.exists_components_eq_concat
  have hx : x ∈ name.components := hcomp ▸ List.mem_concat_self
  have hfront : ∀ word ∈ front, Path.IsStep word ∧ word ≠ ".." := fun word hword =>
    hsteps word (hcomp ▸ List.mem_append_left _ hword)
  have hlocate : t.locateComponents dir (front ++ [x]) = some (f, kind) := hcomp ▸ hfound
  have hdown := hd.down hfront
  rw [hcomp, Path.down_concat]
  rcases of_locateLeaf (locateLeaf_of_locateComponents hlocate).1 with hdirectory | ⟨hreal, file, hfile, rfl⟩
  · exact Or.inl (packageDir?_of_moduleAtDirectory? hdown (hsteps x hx).1 hdirectory)
  · obtain ⟨hslash, hinit⟩ := hwords x hx
    exact Or.inr ⟨hfile.packageDir? ht hdown hslash hinit, fun hdir => ⟨front, x, file, hcomp, hdir, hreal, hfile⟩⟩

/-- What is found lies directly where the enclosing package leads to, which is a package. -/
theorem FindsAt.exists_place (hpackage : name.package? = some outer) :
    t.isPackage (dir.down outer.components) = true ∧
      ∃ x, f.place = (dir.down outer.components).components ++ [.name x] := by
  have hsteps := h.steps fun word hword => (hwords word hword).1
  obtain ⟨kind, hfound⟩ := h
  obtain ⟨x, hcomp⟩ := ModuleName.package?_eq_some_iff.1 hpackage
  have hx : x ∈ name.components := hcomp ▸ List.mem_concat_self
  have hfront : ∀ word ∈ outer.components, Path.IsStep word ∧ word ≠ ".." := fun word hword =>
    hsteps word (ModuleName.mem_of_package? hpackage hword)
  have hlocate : t.locateComponents dir (outer.components ++ [x]) = some (f, kind) := hcomp ▸ hfound
  obtain ⟨hleaf, hp⟩ := locateLeaf_of_locateComponents hlocate
  refine ⟨hp outer.components_ne_nil, ?_⟩
  exact exists_place_of_locateLeaf ht (hd.down hfront).1 (ne_of_locateComponents hfound x hx)
    (Text.not_mem_of_mem_fields hx) (hwords x hx).1 (hwords x hx).2 hleaf

/-- A module that is found in the directory of a package is found under the name of the package as well. -/
theorem FindsAt.child {K : Path} {kind : ModuleKind} {member : String} (hdot : '.' ∉ member.toList)
    (hK : SearchPath.packageDir? t f = some K) (hmember : t.locateIn K member = some (g, kind)) :
    t.FindsAt dir (name.child member) g := by
  have hne : member ≠ "" := by
    refine ne_of_locateComponents hmember member ?_
    rw [Text.fields_of_not_mem hdot]
    exact List.mem_singleton_self _
  rcases h.packageDir? ht hd hwords with ⟨hdown, hp⟩ | ⟨hnone, _⟩
  · obtain rfl := Option.some.inj (hK.symm.trans hdown)
    obtain ⟨kind', hfound⟩ := h
    have hcomp : (name.child member).components = name.components ++ [member] := by
      rw [name.components_child, Text.fields_of_not_mem hdot]
    rw [locateIn_of_not_mem hdot hne] at hmember
    exact ⟨kind, (congrArg _ hcomp).trans ((locateComponents_concat hfound hp hne).trans hmember)⟩
  · cases hK.symm.trans hnone

/-- A package that is found holds what is found in it from the same directory, if no module file comes before it. -/
theorem FindsAt.holdsDirectly (hpackage : name.package? = some outer) {package : ModuleFile}
    (houter : t.FindsAt dir outer package) (hshadow : ¬ t.Shadows dir outer) : t.HoldsDirectly package f := by
  obtain ⟨hp, x, hplace⟩ := h.exists_place ht hd hwords hpackage
  have houterwords : ∀ word ∈ outer.components, '/' ∉ word.toList ∧ word ≠ "__init__" := fun word hword =>
    hwords word (ModuleName.mem_of_package? hpackage hword)
  rcases houter.packageDir? ht hd houterwords with ⟨hdown, _⟩ | ⟨_, hdir⟩
  · exact ⟨_, x, hdown, hplace⟩
  · exact absurd (hdir (isDir_of_isPackage hp)) hshadow

/-- A package that is found from another directory holds it only if this is the same directory, spelled otherwise. -/
theorem FindsAt.components_eq (hpackage : name.package? = some outer) {other : Path} {package : ModuleFile}
    (hother : other.IsCanonical t.workDir) (houter : t.FindsAt other outer package)
    (hholds : t.HoldsDirectly package f) : other.components = dir.components := by
  obtain ⟨_, x, hplace⟩ := h.exists_place ht hd hwords hpackage
  have houterwords : ∀ word ∈ outer.components, '/' ∉ word.toList ∧ word ≠ "__init__" := fun word hword =>
    hwords word (ModuleName.mem_of_package? hpackage hword)
  have hsteps := houter.steps fun word hword => (houterwords word hword).1
  obtain ⟨K, y, hK, hbelow⟩ := hholds
  rcases houter.packageDir? ht hother houterwords with ⟨hdown, _⟩ | ⟨hnone, _⟩
  · obtain rfl := Option.some.inj (hK.symm.trans hdown)
    have heq := (List.append_inj' (hbelow.symm.trans hplace) rfl).1
    rw [Path.components_down hother.1 hsteps, Path.components_down hd.1 hsteps] at heq
    exact List.append_cancel_right heq
  · cases hK.symm.trans hnone

end Found

end FileTree

/-! ## The edges of an absolute import -/

namespace SearchPath

variable {s : SearchPath} {t : FileTree} {i : ImportStatement} {edge : ImportEdge} {f : ModuleFile}

/-- The directories that are searched are canonical, and none is listed in two spellings. -/
structure IsCanonical (s : SearchPath) (t : FileTree) : Prop where
  canonical : ∀ dir ∈ s.dirs, dir.IsCanonical t.workDir
  eq_of_components : ∀ dir ∈ s.dirs, ∀ other ∈ s.dirs, other.components = dir.components → other = dir

/-- One of the directories that are searched has a module at this file under the name. -/
theorem exists_of_locate {name : ModuleName} {kind : ModuleKind} (h : s.locate t name = some (f, kind)) :
    ∃ dir ∈ s.dirs, t.FindsAt dir name f := by
  obtain ⟨dir, hdir, hfound⟩ := List.exists_of_findSome?_eq_some h
  exact ⟨dir, hdir, kind, hfound⟩

/-- What an edge of an absolute import leads to is found from one of the directories that are searched. -/
theorem exists_findsAt_of_mem {at_ : SourceRef} (ht : t.IsWellFormed) (hs : s.IsCanonical t)
    (hwords : ∀ word ∈ i.components, '/' ∉ word.toList ∧ word ≠ "__init__")
    (hnames : ∀ member ∈ i.names, '.' ∉ member.toList) (h : edge ∈ s.resolveAbsolute t i at_)
    (hf : edge.file = some f) : ∃ dir ∈ s.dirs, t.FindsAt dir edge.name f := by
  dsimp only [resolveAbsolute] at h
  split at h
  · rw [List.mem_singleton.1 h] at hf
    cases hf
  · split at h
    · rw [List.mem_singleton.1 h] at hf
      cases hf
    next file kind hlocate =>
      rcases List.mem_append.1 h with h | h
      · obtain ⟨parent, _, h⟩ := List.mem_filterMap.1 h
        obtain ⟨⟨found, kind'⟩, hparent, rfl⟩ := Option.map_eq_some_iff.1 h
        cases hf
        exact exists_of_locate hparent
      · rcases List.mem_cons.1 h with rfl | h
        · cases hf
          exact exists_of_locate hlocate
        · obtain ⟨K, member, kind', hK, hmember, hname, hfound⟩ := exists_of_mem_memberEdges h hf
          obtain ⟨dir, hdir, hpackage⟩ := exists_of_locate hlocate
          have hpath : ∀ word ∈ (⟨i.path⟩ : ModuleName).components, '/' ∉ word.toList ∧ word ≠ "__init__" :=
            fun word hword => hwords word (List.mem_append_left _ hword)
          rw [hname]
          exact ⟨dir, hdir, hpackage.child ht (hs.canonical dir hdir) hpath (hnames member hmember) hK hfound⟩

end SearchPath

/-- Among the edges of an absolute import, where the parts of its names are identifiers other than `__init__`: unless a
module file comes before the directory of a package, the package holds the next module of the name directly in its
directory exactly if both are found from one of the directories that are searched. -/
theorem holdsDirectly_iff_together {s : SearchPath} {t : FileTree} {importer : ModuleRecord} {i : ImportStatement}
    (ht : t.IsWellFormed) (hs : s.IsCanonical t) (hlevel : i.level = 0)
    (hwords : ∀ word ∈ i.components, '/' ∉ word.toList ∧ word ≠ "__init__")
    (hnames : ∀ member ∈ i.names, '.' ∉ member.toList) {outer inner : ImportEdge}
    (houter : outer ∈ s.resolve t importer i) (hinner : inner ∈ s.resolve t importer i)
    (hpackage : inner.name.package? = some outer.name) {package f : ModuleFile}
    (hpackagefile : outer.file = some package) (hf : inner.file = some f)
    (hshadow : ∀ dir ∈ s.dirs, t.FindsAt dir outer.name package → ¬ t.Shadows dir outer.name) :
    t.HoldsDirectly package f ↔ ∃ dir ∈ s.dirs, t.FindsAt dir outer.name package ∧ t.FindsAt dir inner.name f := by
  have hresolve : s.resolve t importer i = s.resolveAbsolute t i ⟨importer.file.path, i.line⟩ := by
    simp [SearchPath.resolve, hlevel]
  rw [hresolve] at houter hinner
  have hinnerwords : ∀ word ∈ inner.name.components, '/' ∉ word.toList ∧ word ≠ "__init__" := fun word hword =>
    hwords word ((SearchPath.of_mem_resolveAbsolute hinner hf).2.subset hword)
  constructor
  · intro hholds
    obtain ⟨other, hother, hfound⟩ := SearchPath.exists_findsAt_of_mem ht hs hwords hnames houter hpackagefile
    obtain ⟨dir, hdir, hmodule⟩ := SearchPath.exists_findsAt_of_mem ht hs hwords hnames hinner hf
    have hcomp := hmodule.components_eq ht (hs.canonical dir hdir) hinnerwords hpackage (hs.canonical other hother)
      hfound hholds
    obtain rfl := hs.eq_of_components dir hdir other hother hcomp
    exact ⟨other, hdir, hfound, hmodule⟩
  · rintro ⟨dir, hdir, hfound, hmodule⟩
    exact hmodule.holdsDirectly ht (hs.canonical dir hdir) hinnerwords hpackage hfound (hshadow dir hdir hfound)

/-- A package whose modules are spread over two directories that are searched. -/
def FileTree.portions : FileTree :=
  ((empty ⟨"/w"⟩).add ["w", "A", "a", "x.py"] (.text "")).add ["w", "B", "a", "b.py"] (.text "")

/-- The search path over the two directories. -/
def SearchPath.portions : SearchPath :=
  ofDirs ⟨"/w"⟩ [⟨"/w/A"⟩, ⟨"/w/B"⟩] []

/-- The search path over both portions is canonical. -/
theorem SearchPath.isCanonical_portions : SearchPath.portions.IsCanonical .portions := by
  have hdirs : SearchPath.portions.dirs = [⟨"/w/A"⟩, ⟨"/w/B"⟩] := by decide +kernel
  constructor
  · rw [hdirs]
    intro dir hdir
    rcases List.mem_pair.1 hdir with rfl | rfl
    · exact ⟨by decide, by decide +kernel⟩
    · exact ⟨by decide, by decide +kernel⟩
  · rw [hdirs]
    decide +kernel

/-- The tree with both portions is as a disk can hold it. -/
theorem FileTree.isWellFormed_portions : FileTree.portions.IsWellFormed :=
  ((isWellFormed_empty (by decide) (by decide)).add _ (by decide)).add _ (by decide)

/-- In neither directory a module file comes before the package. -/
theorem FileTree.not_shadows_portions {dir : Path} (hdir : dir ∈ SearchPath.portions.dirs) :
    ¬ FileTree.portions.Shadows dir ⟨"a"⟩ := by
  have hlist : ∀ dir ∈ SearchPath.portions.dirs, FileTree.portions.list dir = .ok ["a"] := by decide +kernel
  have hnone : ∀ dir ∈ SearchPath.portions.dirs, FileTree.portions.isFile (dir.child "a") = false ∧
      FileTree.portions.isFile (dir.child ("a" ++ sourceSuffix)) = false ∧
        FileTree.portions.isFile (dir.child ("a" ++ bytecodeSuffix)) = false := by decide +kernel
  rintro ⟨front, x, file, hcomp, _, _, hfile⟩
  obtain ⟨rfl, hx⟩ := List.append_inj' (hcomp.symm.trans (show _ = [] ++ ["a"] by decide)) rfl
  obtain rfl : x = "a" := List.singleton_inj.1 hx
  obtain ⟨hbare, hsource, hbytecode⟩ := hnone dir hdir
  have hisfile : FileTree.portions.isFile (dir.child file) = true := hfile.isFile
  cases hfile with
  | source => exact absurd (hisfile.symm.trans hsource) (by decide)
  | bytecode => exact absurd (hisfile.symm.trans hbytecode) (by decide)
  | extension hl =>
    obtain ⟨names, hnames, hmem⟩ := hl
    cases (hlist dir hdir).symm.trans hnames
    rw [List.mem_singleton.1 hmem] at hisfile
    exact absurd (hisfile.symm.trans hbare) (by decide)

/-- The module `a.x` lies in the package `a` that is found, as both are found from the first directory. -/
theorem holdsDirectly_iff_together_portions :
    FileTree.portions.HoldsDirectly ⟨⟨"/w/A/a"⟩⟩ ⟨⟨"/w/A/a/x.py"⟩⟩ := by
  have hedges : SearchPath.portions.resolve .portions .memberX ⟨"a.x", 0, [], 1⟩ =
      [.found ⟨"a"⟩ ⟨⟨"/w/A/a"⟩⟩ .source 0 ⟨⟨"/w/pkg/x.py"⟩, 1⟩,
        .found ⟨"a.x"⟩ ⟨⟨"/w/A/a/x.py"⟩⟩ .source 0 ⟨⟨"/w/pkg/x.py"⟩, 1⟩] := by decide +kernel
  have houter : .found ⟨"a"⟩ ⟨⟨"/w/A/a"⟩⟩ .source 0 ⟨⟨"/w/pkg/x.py"⟩, 1⟩ ∈
      SearchPath.portions.resolve .portions .memberX ⟨"a.x", 0, [], 1⟩ := hedges ▸ List.mem_cons_self
  have hinner : .found ⟨"a.x"⟩ ⟨⟨"/w/A/a/x.py"⟩⟩ .source 0 ⟨⟨"/w/pkg/x.py"⟩, 1⟩ ∈
      SearchPath.portions.resolve .portions .memberX ⟨"a.x", 0, [], 1⟩ :=
    hedges ▸ List.mem_cons_of_mem _ List.mem_cons_self
  have hlevel : ImportStatement.level ⟨"a.x", 0, [], 1⟩ = 0 := rfl
  refine (holdsDirectly_iff_together FileTree.isWellFormed_portions SearchPath.isCanonical_portions hlevel (by decide)
    (by decide) houter hinner (by decide) rfl rfl fun dir hdir _ => FileTree.not_shadows_portions hdir).2 ?_
  exact ⟨⟨"/w/A"⟩, by decide +kernel, ⟨.source, by decide +kernel⟩, ⟨.source, by decide +kernel⟩⟩

/-- The package `a` is found in the first directory, and its module `a.b` in the second. -/
theorem portions_not_held :
    ∃ outer ∈ SearchPath.portions.resolve .portions .memberX ⟨"a.b", 0, [], 1⟩,
      ∃ inner ∈ SearchPath.portions.resolve .portions .memberX ⟨"a.b", 0, [], 1⟩,
        inner.name.package? = some outer.name ∧ outer.file = some ⟨⟨"/w/A/a"⟩⟩ ∧ inner.file = some ⟨⟨"/w/B/a/b.py"⟩⟩ ∧
          ¬ FileTree.portions.HoldsDirectly ⟨⟨"/w/A/a"⟩⟩ ⟨⟨"/w/B/a/b.py"⟩⟩ := by
  have hedges : SearchPath.portions.resolve .portions .memberX ⟨"a.b", 0, [], 1⟩ =
      [.found ⟨"a"⟩ ⟨⟨"/w/A/a"⟩⟩ .source 0 ⟨⟨"/w/pkg/x.py"⟩, 1⟩,
        .found ⟨"a.b"⟩ ⟨⟨"/w/B/a/b.py"⟩⟩ .source 0 ⟨⟨"/w/pkg/x.py"⟩, 1⟩] := by decide +kernel
  rw [hedges]
  refine ⟨_, List.mem_cons_self, _, List.mem_cons_of_mem _ List.mem_cons_self, by decide, rfl, rfl, ?_⟩
  rintro ⟨dir, name, hdir, hplace⟩
  obtain rfl : ⟨"/w/A/a"⟩ = dir := Option.some.inj ((show _ = some _ by decide +kernel).symm.trans hdir)
  have hfront := congrArg List.dropLast hplace
  rw [List.dropLast_concat] at hfront
  exact absurd hfront (by decide +kernel)

end ImportClosure
