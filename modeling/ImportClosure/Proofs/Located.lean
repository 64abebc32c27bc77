import ImportClosure.Proofs.Joins
import ImportClosure.SearchPath

/-!
# Where modules are found

A module that is found below a directory stands in the tree (`FileTree.Has`), and its place is at least as many steps
below the directory as its name has components (`FileTree.length_of_locateIn`). This takes a name that leads down: no
component of it begins at the root, and the last one is not that of the init entry, under which a package would be found
in itself.
-/

namespace ImportClosure

/-! ## Places -/

namespace ModuleFile

variable {w p : Path}

/-- The file of a path that is not empty is absolute. -/
theorem isAbsolute_ofPath (hw : w.isAbsolute = true) (hp : p.text ≠ "") : (ofPath w p).path.isAbsolute = true :=
  (Path.absolute_spec hw hp).1

/-- An absolute path is not empty. -/
theorem text_ne_nil_of_isAbsolute {p : Path} (h : p.isAbsolute = true) : p.text ≠ "" := by
  obtain ⟨s, rfl⟩ := Path.isAbsolute_iff.1 h
  intro hs
  have := congrArg String.toList hs
  simp at this

/-- The file of an absolute path has its components. -/
theorem components_ofPath (hw : w.isAbsolute = true) (hp : p.isAbsolute = true) :
    (ofPath w p).path.components = p.components :=
  (Path.absolute_spec hw (text_ne_nil_of_isAbsolute hp)).2 hp

/-- At most the init entry is missing from a place. -/
theorem length_components_le (f : ModuleFile) : f.path.components.length ≤ f.place.length + 1 := by
  rw [components_path]
  split <;> simp

/-- The place of a file has no more components than its path. -/
theorem length_place_le (f : ModuleFile) : f.place.length ≤ f.path.components.length := by
  rw [components_path]
  split <;> simp

/-- A file that is no init entry is at its own path. -/
theorem place_of_ne {f : ModuleFile} (h : f.path.fileName ≠ some initEntry) : f.place = f.path.components := by
  have hi : f.isInitEntry = false := by simpa [isInitEntry] using h
  rw [components_path, hi]
  rfl

/-- The file of an absolute path has its name. -/
theorem fileName_ofPath (hw : w.isAbsolute = true) (hp : p.isAbsolute = true) :
    (ofPath w p).path.fileName = p.fileName := by
  rw [Path.fileName, components_ofPath hw hp, Path.fileName]

/-- The identity of an absolute file is absolute. -/
theorem isAbsolute_identity {f : ModuleFile} (h : f.path.isAbsolute = true) : f.identity.isAbsolute = true := by
  unfold identity
  split
  · cases hq : f.path.parent? with
    | none => exact h
    | some q => exact Path.isAbsolute_parent? hq h
  · exact h

end ModuleFile

namespace FileTree

variable {t : FileTree} {dir p : Path} {f : ModuleFile} {kind : ModuleKind}

/-! ## What is found -/

/-- A file that something in the tree can be reached by. -/
def Has (t : FileTree) (f : ModuleFile) : Prop :=
  ∃ p, t.exists? p = true ∧ f = .ofPath t.workDir p

/-- A directory is there. -/
theorem exists?_of_isDir (h : t.isDir p = true) : t.exists? p = true := by
  rw [isDir, beq_iff_eq] at h
  rw [exists?, h]
  rfl

/-- A file is there. -/
theorem exists?_of_isFile (h : t.isFile p = true) : t.exists? p = true := by
  unfold isFile at h
  unfold exists?
  cases hr : t.read? p with
  | none => simp [hr] at h
  | some c => rfl

/-- At the empty path nothing is. -/
theorem text_ne_of_exists? (h : t.exists? p = true) : p.text ≠ "" := by
  intro hp
  have hl : t.locate p = .error .notFound := by simp [locate, hp]
  simp [exists?, read?, hl] at h

/-- What the module of a directory is: its init entry, or the directory itself. -/
inductive DirectoryModule (t : FileTree) (dir : Path) : Path → Prop where
  | entry (h : t.isFile (dir.child initEntry) = true) : DirectoryModule t dir (dir.child initEntry)
  | bare (h : t.isDir dir = true) (hn : dir.fileName ≠ some initEntry) : DirectoryModule t dir dir

/-- What the module of a name in a directory is: that of a directory, a file of this name with the suffix of a source or
of bytecode, or an extension whose file name begins with the name. -/
inductive LeafModule (t : FileTree) (dir : Path) (name : String) : Path → Prop where
  | package {p : Path} (h : t.DirectoryModule (dir.child name) p) : LeafModule t dir name p
  | suffixed (suffix : String) (hs : suffix = sourceSuffix ∨ suffix = bytecodeSuffix)
      (h : t.isFile (dir.child (name ++ suffix)) = true) : LeafModule t dir name (dir.child (name ++ suffix))
  | extension (file : String) (hf : Text.startsWith file name = true) (h : t.isFile (dir.child file) = true)
      (hn : (dir.child file).fileName ≠ some initEntry) : LeafModule t dir name (dir.child file)

/-- The module of a directory is its init entry or the directory itself. -/
theorem directoryModule (h : t.moduleAtDirectory? dir = some (f, kind)) :
    ∃ p, f = .ofPath t.workDir p ∧ t.DirectoryModule dir p := by
  unfold moduleAtDirectory? at h
  split at h
  · cases h
  next hp =>
    split at h
    next hi =>
      cases h
      exact ⟨_, rfl, .entry hi⟩
    next hi =>
      cases h
      simp only [isPackage, Bool.not_eq_true', Bool.not_eq_false, Bool.and_eq_true, Bool.or_eq_true, hi,
        Bool.false_eq_true, false_or, Option.any_eq_true] at hp
      obtain ⟨hd, name, hname, _, hid⟩ := hp
      refine ⟨_, rfl, .bare hd fun hn => ?_⟩
      obtain rfl : name = initEntry := Option.some.inj (hname.symm.trans hn)
      exact absurd hid (by decide +kernel)

/-- No directory and no init entry is an extension module. -/
theorem kind_ne_of_moduleAt? {bare : String} (h : t.moduleAt? p = some (bare, kind))
    (hp : t.isDir p = true ∨ p.fileName = some initEntry) : kind ≠ .extension := by
  rintro rfl
  obtain ⟨name, hname, h⟩ := Option.bind_eq_some_iff.1 h
  split at h
  · cases h
  split at h
  · cases h
  next hbare =>
    rw [Bool.or_eq_true, not_or] at hbare
    obtain rfl : name = initEntry := Option.some.inj (hname.symm.trans (hp.resolve_left hbare.1))
    rw [show kindOfName? initEntry = some .source by decide +kernel] at h
    cases h

/-- The name of an extension module is not that of the init entry. -/
theorem fileName_ne_of_isExtensionOf {name : String} (h : t.isExtensionOf name p = true) :
    p.fileName ≠ some initEntry := by
  intro hn
  simp only [isExtensionOf, Bool.and_eq_true, beq_iff_eq] at h
  exact kind_ne_of_moduleAt? h.2 (Or.inr hn) rfl

/-- What a suffix finds is the file with the suffix. -/
theorem fileWithSuffix?_eq_some {name suffix : String} {kind' : ModuleKind}
    (h : t.fileWithSuffix? dir name suffix kind' = some (f, kind)) :
    t.isFile (dir.child (name ++ suffix)) = true ∧ f = .ofPath t.workDir (dir.child (name ++ suffix)) ∧ kind = kind' := by
  simp only [fileWithSuffix?] at h
  split at h
  next hfile =>
    cases h
    exact ⟨hfile, rfl, rfl⟩
  next => cases h

/-- An extension module that is found is a file in the directory whose name begins with that of the module. -/
theorem extensionIn?_eq_some {name : String} (h : t.extensionIn? dir name = some (f, kind)) :
    ∃ names file, t.list dir = .ok names ∧ file ∈ names ∧ Text.startsWith file name = true ∧
      t.isExtensionOf name (dir.child file) = true ∧ f = .ofPath t.workDir (dir.child file) ∧ kind = .extension := by
  unfold extensionIn? at h
  split at h
  · cases h
  next names hl =>
    obtain ⟨file, hmem, h⟩ := List.exists_of_findSome?_eq_some h
    obtain ⟨hlisted, hstart⟩ := List.mem_filter.1 hmem
    split at h
    next hx =>
      cases h
      exact ⟨names, file, hl, hlisted, hstart, hx, rfl, rfl⟩
    next => cases h

/-- The ways to find a name in a directory: as a directory, or beside it as a source, an extension or bytecode. -/
theorem locateLeaf_eq_some {name : String} {found : Located} (h : t.locateLeaf dir name = some found) :
    t.moduleAtDirectory? (dir.child name) = some found ∨ t.isRealPackage (dir.child name) = false ∧
      (t.fileWithSuffix? dir name sourceSuffix .source = some found ∨ t.extensionIn? dir name = some found ∨
        t.fileWithSuffix? dir name bytecodeSuffix .bytecode = some found) := by
  unfold locateLeaf at h
  split at h
  · exact Or.inl h
  next hreal =>
    rw [Option.or_eq_some_iff, Option.or_eq_some_iff, Option.or_eq_some_iff] at h
    rw [Bool.not_eq_true] at hreal
    rcases h with h | ⟨_, h | ⟨_, h | ⟨_, h⟩⟩⟩
    · exact Or.inr ⟨hreal, Or.inl h⟩
    · exact Or.inr ⟨hreal, Or.inr (Or.inl h)⟩
    · exact Or.inr ⟨hreal, Or.inr (Or.inr h)⟩
    · exact Or.inl h

/-- What is found under one component is a package, or a module beside it. -/
theorem leafModule {name : String} (h : t.locateLeaf dir name = some (f, kind)) :
    ∃ p, f = .ofPath t.workDir p ∧ t.LeafModule dir name p := by
  rcases locateLeaf_eq_some h with h | ⟨_, h | h | h⟩
  · obtain ⟨p, hf, hp⟩ := directoryModule h
    exact ⟨p, hf, .package hp⟩
  · obtain ⟨hfile, hf, _⟩ := fileWithSuffix?_eq_some h
    exact ⟨_, hf, .suffixed _ (Or.inl rfl) hfile⟩
  · obtain ⟨names, file, _, _, hstart, hx, hf, _⟩ := extensionIn?_eq_some h
    have hfile : t.isFile (dir.child file) = true := (Bool.and_eq_true_iff.1 hx).1
    exact ⟨_, hf, .extension file hstart hfile (fileName_ne_of_isExtensionOf hx)⟩
  · obtain ⟨hfile, hf, _⟩ := fileWithSuffix?_eq_some h
    exact ⟨_, hf, .suffixed _ (Or.inr rfl) hfile⟩

/-- What stands for a directory is there. -/
theorem DirectoryModule.exists? (h : t.DirectoryModule dir p) : t.exists? p = true := by
  cases h with
  | entry h => exact exists?_of_isFile h
  | bare h _ => exact exists?_of_isDir h

/-- What stands for a component is there. -/
theorem LeafModule.exists? {name : String} (h : t.LeafModule dir name p) : t.exists? p = true := by
  cases h with
  | package h => exact h.exists?
  | suffixed _ _ h | extension _ _ h _ => exact exists?_of_isFile h

/-- What is found under the components of a name can be reached in the tree. -/
theorem has_of_locateComponents {names : List String} (h : t.locateComponents dir names = some (f, kind)) :
    t.Has f := by
  induction names generalizing dir with
  | nil => cases h
  | cons name more ih =>
    unfold locateComponents at h
    split at h
    · cases h
    · split at h
      · cases h
      · obtain ⟨p, hf, hp⟩ := leafModule h
        exact ⟨p, hp.exists?, hf⟩
    next hcons =>
      obtain ⟨rfl, rfl⟩ := List.cons.inj hcons
      split at h
      · cases h
      · exact ih h

/-- What the search path comes to can be reached in the tree. -/
theorem has_of_locate {s : SearchPath} {name : ModuleName} (h : s.locate t name = some (f, kind)) : t.Has f := by
  obtain ⟨dir, _, h⟩ := List.exists_of_findSome?_eq_some h
  exact has_of_locateComponents h

/-- What can be reached in a tree is absolute. -/
theorem isAbsolute_of_has (hw : t.workDir.isAbsolute = true) (h : t.Has f) : f.path.isAbsolute = true := by
  obtain ⟨p, hp, rfl⟩ := h
  exact ModuleFile.isAbsolute_ofPath hw (text_ne_of_exists? hp)

/-! ## How deep it lies -/

/-- A dotted name that leads down from a directory: none of its components begins at the root, and the last one is not
the name of the init entry. -/
def leadsDown (dotted : String) : Bool :=
  ((Text.fields '.' dotted).all fun name => !Path.isAbsolute ⟨name⟩) && (Text.fields '.' dotted).getLast? != some "__init__"

/-- The module of a directory does not lie above it. -/
theorem DirectoryModule.length_le (hw : t.workDir.isAbsolute = true) (hd : dir.isAbsolute = true)
    (h : t.DirectoryModule dir p) : dir.components.length ≤ (ModuleFile.ofPath t.workDir p).place.length := by
  cases h with
  | entry =>
    have hlen := (ModuleFile.ofPath t.workDir (dir.child initEntry)).length_components_le
    rw [ModuleFile.components_ofPath hw (Path.isAbsolute_child hd _)] at hlen
    have hn : Path.BeginsStep initEntry := ⟨'_', _, rfl, by decide, by decide⟩
    have := Path.length_components_child hd hn
    omega
  | bare _ hn =>
    have hplace : (ModuleFile.ofPath t.workDir dir).place = dir.components := by
      rw [ModuleFile.place_of_ne (by rwa [ModuleFile.fileName_ofPath hw hd]), ModuleFile.components_ofPath hw hd]
    exact Nat.le_of_eq (congrArg List.length hplace.symm)

/-- The file of a source or of bytecode is the init entry only under the name of it. -/
theorem ne_takeWhile {name suffix : String} (hs : suffix = sourceSuffix ∨ suffix = bytecodeSuffix)
    (hdot : '.' ∉ name.toList) (hinit : name ≠ "__init__") :
    initEntry.toList ≠ (name ++ suffix).toList.takeWhile (· != '/') := by
  intro h
  rw [String.toList_append, List.takeWhile_append] at h
  split at h
  · rcases hs with rfl | rfl
    · have h : "__init__".toList ++ sourceSuffix.toList = name.toList ++ sourceSuffix.toList := h
      exact hinit (String.toList_inj.1 (List.append_cancel_right h.symm))
    · have hlast := congrArg List.getLast? h
      rw [show bytecodeSuffix.toList.takeWhile (· != '/') = ['.', 'p', 'y', 'c'] by decide, List.getLast?_append,
        show initEntry.toList.getLast? = some 'y' by decide] at hlast
      simp at hlast
  · exact hdot ((List.takeWhile_prefix _).subset (h ▸ (by decide : '.' ∈ initEntry.toList)))

/-- What is found under a component lies below the directory. -/
theorem LeafModule.length_le {name : String} (hw : t.workDir.isAbsolute = true) (hd : dir.isAbsolute = true)
    (hn : Path.BeginsStep name) (hdot : '.' ∉ name.toList) (hinit : name ≠ "__init__") (h : t.LeafModule dir name p) :
    dir.components.length + 1 ≤ (ModuleFile.ofPath t.workDir p).place.length := by
  cases h with
  | package h =>
    have hlen := h.length_le hw (Path.isAbsolute_child hd _)
    have := Path.length_components_child hd hn
    omega
  | suffixed suffix hs =>
    have habs : (dir.child (name ++ suffix)).isAbsolute = true := Path.isAbsolute_child hd _
    obtain ⟨first, rest, hfirst, hcomp⟩ := Path.components_child hd (hn.append suffix)
    by_cases hp : (dir.child (name ++ suffix)).fileName = some initEntry
    · have hlen := (ModuleFile.ofPath t.workDir (dir.child (name ++ suffix))).length_components_le
      rw [ModuleFile.components_ofPath hw habs, hcomp, List.length_append, List.length_cons] at hlen
      cases rest with
      | cons => simp only [List.length_cons] at hlen; omega
      | nil =>
        obtain rfl : first = initEntry := by simpa [Path.fileName, hcomp] using hp
        exact absurd hfirst (ne_takeWhile hs hdot hinit)
    · rw [ModuleFile.place_of_ne (by rwa [ModuleFile.fileName_ofPath hw habs]), ModuleFile.components_ofPath hw habs,
        hcomp, List.length_append, List.length_cons]
      omega
  | extension file hf _ hne =>
    have habs : (dir.child file).isAbsolute = true := Path.isAbsolute_child hd _
    rw [ModuleFile.place_of_ne (by rwa [ModuleFile.fileName_ofPath hw habs]), ModuleFile.components_ofPath hw habs]
    exact Path.length_components_child hd (hn.of_startsWith hf)

/-- A module lies at least as deep below a directory as its name has components. -/
theorem length_of_locateComponents {names : List String} (hw : t.workDir.isAbsolute = true)
    (hd : dir.isAbsolute = true) (hn : ∀ name ∈ names, '.' ∉ name.toList ∧ Path.isAbsolute ⟨name⟩ = false)
    (hinit : names.getLast? ≠ some "__init__") (h : t.locateComponents dir names = some (f, kind)) :
    dir.components.length + names.length ≤ f.place.length := by
  induction names generalizing dir with
  | nil => cases h
  | cons name more ih =>
    obtain ⟨hdot, hroot⟩ := hn name List.mem_cons_self
    unfold locateComponents at h
    split at h
    · cases h
    next hcons =>
      obtain ⟨rfl, rfl⟩ := List.cons.inj hcons
      split at h
      · cases h
      next hne =>
        obtain ⟨p, rfl, hp⟩ := leafModule h
        have hb := Path.beginsStep_of_not_mem (by simpa using hne) hdot hroot
        exact hp.length_le hw hd hb hdot (by simpa using hinit)
    next hmore hcons =>
      obtain ⟨rfl, rfl⟩ := List.cons.inj hcons
      split at h
      · cases h
      next hne =>
        have hne' : name ≠ "" := fun he => hne (by simp [he])
        have hb := Path.beginsStep_of_not_mem hne' hdot hroot
        have hstep := Path.length_components_child hd hb
        have hlast : more.getLast? ≠ some "__init__" := by rwa [List.getLast?_cons_of_ne_nil hmore] at hinit
        have hrest := ih (Path.isAbsolute_child hd _) (fun n hmem => hn n (List.mem_cons_of_mem _ hmem)) hlast h
        rw [List.length_cons]
        omega

/-- What is found under a dotted name lies as many steps below the directory as the name has components. -/
theorem length_of_locateIn {dotted : String} (hw : t.workDir.isAbsolute = true) (hd : dir.isAbsolute = true)
    (hl : leadsDown dotted = true) (h : t.locateIn dir dotted = some (f, kind)) :
    dir.components.length + (Text.fields '.' dotted).length ≤ f.place.length := by
  simp only [leadsDown, Bool.and_eq_true, List.all_eq_true, Bool.not_eq_true', bne_iff_ne] at hl
  exact length_of_locateComponents hw hd (fun name hmem => ⟨Text.not_mem_of_mem_fields hmem, hl.1 name hmem⟩) hl.2 h

/-- The directory of a package is absolute like the file that stands for it, and lies as deep as its place. -/
theorem packageDir?_spec (hf : f.path.isAbsolute = true) (h : SearchPath.packageDir? t f = some dir) :
    dir.isAbsolute = true ∧ dir.components.length = f.place.length := by
  have hlen := congrArg List.length f.components_path
  unfold SearchPath.packageDir? at h
  split at h
  next hi =>
    rw [if_pos hi, List.length_append, List.length_singleton] at hlen
    refine ⟨Path.isAbsolute_parent? h hf, ?_⟩
    rw [Path.components_parent? h, List.length_dropLast]
    omega
  next hi =>
    rw [if_neg hi] at hlen
    split at h
    · cases h
      exact ⟨hf, hlen⟩
    · cases h

end FileTree

end ImportClosure
