import ImportClosure.Proofs.Builders
import ImportClosure.Proofs.Canonical
import ImportClosure.Proofs.Subtrees

/-!
# Members of package directories

What a walk makes of a name that a directory lists: the file at its path stands at the place of the directory with the
name behind it (`ModuleFile.place_child`), a package goes by its name and a source by the name up to the first dot. Over
sources the module that comes out of it is at that place as well (`BuildRequest.identity_target`), since the init entry of
a package is at the place of its directory.
-/

namespace ImportClosure

variable {w dir : Path} {name : String}

namespace Path

/-- The last step of a name in a directory. -/
theorem components_child_eq (h : dir.isAbsolute = true) (hn : IsStep name) (hne : name ≠ "..") :
    (dir.child name).components = dir.components ++ [.name name] := by
  obtain ⟨c, hc, hcomp⟩ := components_child_of_isStep h hn
  have hname : component? name = some (.name name) := by simp [component?, hn.2, hne]
  obtain rfl : c = .name name := Option.some.inj (hc.symm.trans hname)
  exact hcomp

/-- A child is called by its name. -/
theorem fileName_child (h : dir.isAbsolute = true) (hn : IsStep name) (hne : name ≠ "..") :
    (dir.child name).fileName = some name := by
  rw [fileName, components_child_eq h hn hne, List.getLast?_concat]

/-- A name without dots and slashes is a step. -/
theorem isStep_of_not_mem (hne : name ≠ "") (hdot : '.' ∉ name.toList) (hslash : '/' ∉ name.toList) :
    IsStep name ∧ name ≠ ".." := by
  refine ⟨⟨hslash, ?_⟩, ?_⟩
  · have hhere : name ≠ "." := by
      rintro rfl
      exact hdot (by decide)
    simp [isIdle, hne, hhere]
  · rintro rfl
    exact hdot (by decide)

/-- A name with the suffix of a source or of bytecode is a step. -/
theorem isStep_append {suffix : String} (hs : suffix = sourceSuffix ∨ suffix = bytecodeSuffix)
    (hslash : '/' ∉ name.toList) : IsStep (name ++ suffix) ∧ name ++ suffix ≠ ".." := by
  have hlen : 3 ≤ (name ++ suffix).length := by
    rw [String.length_append]
    rcases hs with rfl | rfl
    · exact Nat.le_add_left 3 _
    · exact (Nat.le_succ 3).trans (Nat.le_add_left 4 _)
  have hne : ∀ s : String, s.length < 3 → name ++ suffix ≠ s := by
    rintro s hlt rfl
    omega
  refine ⟨⟨?_, by simp [isIdle, hne "" (by decide), hne "." (by decide)]⟩, hne ".." (by decide)⟩
  rw [String.toList_append, List.mem_append, not_or]
  exact ⟨hslash, by rcases hs with rfl | rfl <;> decide⟩

/-- The name of an init entry is a step. -/
theorem isStep_initEntry : IsStep initEntry := by decide

/-- The source beside a name in a directory. -/
theorem child_append_sourceSuffix (h : dir.isAbsolute = true) (hn : IsStep name) :
    dir.child (name ++ sourceSuffix) = ⟨(dir.child name).text ++ sourceSuffix⟩ := by
  rw [child_eq_append h (isStep_append (Or.inl rfl) hn.1).1, child_eq_append h hn]
  split <;> simp [String.append_assoc]

end Path

namespace ModuleFile

/-- A canonical path is the file at it. -/
theorem ofPath_of_isCanonical {p : Path} (h : p.IsCanonical w) : ofPath w p = ⟨p⟩ :=
  congrArg ModuleFile.mk h.2

/-- The init entry of a package is at the place of its directory. -/
theorem place_child_initEntry (hw : w.isAbsolute = true) (h : dir.isAbsolute = true) :
    (ofPath w (dir.child initEntry)).place = dir.components := by
  have habs := Path.isAbsolute_child h initEntry
  have hcomp := (ofPath w (dir.child initEntry)).components_path
  have hinit : (ofPath w (dir.child initEntry)).isInitEntry = true := by
    rw [isInitEntry, fileName_ofPath hw habs, Path.fileName_child h Path.isStep_initEntry (by decide), beq_self_eq_true]
  rw [components_ofPath hw habs, Path.components_child_eq h Path.isStep_initEntry (by decide), if_pos hinit] at hcomp
  exact (List.append_cancel_right hcomp).symm

/-- Any other name in a directory stands at its own place. -/
theorem place_child (hw : w.isAbsolute = true) (h : dir.isAbsolute = true) (hn : Path.IsStep name) (hne : name ≠ "..")
    (hinit : name ≠ initEntry) : (ofPath w (dir.child name)).place = dir.components ++ [.name name] := by
  have habs := Path.isAbsolute_child h name
  have hfile : (ofPath w (dir.child name)).path.fileName ≠ some initEntry := by
    rw [fileName_ofPath hw habs, Path.fileName_child h hn hne]
    exact fun heq => hinit (Option.some.inj heq)
  rw [place_of_ne hfile, components_ofPath hw habs, Path.components_child_eq h hn hne]

end ModuleFile

namespace FileTree

variable {t : FileTree}

/-- A directory lists a name. -/
def Lists (t : FileTree) (dir : Path) (name : String) : Prop :=
  ∃ names, t.list dir = .ok names ∧ name ∈ names

/-- What is listed can stand in a directory. -/
theorem IsWellFormed.of_lists (ht : t.IsWellFormed) (h : t.Lists dir name) : Path.IsStep name ∧ name ≠ ".." := by
  obtain ⟨names, hl, hmem⟩ := h
  exact (ht.names_of_list hl).2 name hmem

/-- A directory lists the names that an entry stands at. -/
theorem lists_of_mem (place : Place) (hp : t.locate dir = .ok place) (hd : t.content? place = some .directory)
    (h : place ++ [name] ∈ t.entries.map Prod.fst) : t.Lists dir name := by
  refine ⟨(t.childNames place).mergeSort fun a b => decide (a ≤ b), ?_, ?_⟩
  · simp [list, hp, hd, bind, Except.bind]
  · exact List.mem_mergeSort.2 (mem_childNames.2 h)

/-- An extension module that is found is one that the directory lists. -/
theorem exists_of_extensionIn? {f : ModuleFile} {kind : ModuleKind} (h : t.extensionIn? dir name = some (f, kind)) :
    ∃ file, t.Lists dir file ∧ t.isExtensionOf name (dir.child file) = true ∧ f = .ofPath t.workDir (dir.child file) := by
  obtain ⟨names, file, hl, hmem, _, hx, hf, _⟩ := extensionIn?_eq_some h
  exact ⟨file, ⟨names, hl, hmem⟩, hx, hf⟩

/-- What is a file is no directory. -/
theorem isDir_of_isFile {p : Path} (h : t.isFile p = true) : t.isDir p = false := by
  unfold isFile at h
  unfold isDir
  cases hr : t.read? p with
  | none => rfl
  | some c => cases c <;> simp_all

/-- A package is a directory. -/
theorem isDir_of_isPackage {p : Path} (h : t.isPackage p = true) : t.isDir p = true :=
  (Bool.and_eq_true_iff.1 h).1

/-- A name with a suffix goes by what stands in front of the dot. -/
theorem stem_append (hdot : '.' ∉ name.toList) (suffix : String) : stem (name ++ ("." ++ suffix)) = name := by
  rw [stem, ← String.append_assoc, Text.fields_append (show ".".toList = ['.'] from rfl), Text.fields_of_not_mem hdot]
  rfl

/-- A real package is a package. -/
theorem isPackage_of_isRealPackage {p : Path} (h : t.isRealPackage p = true) : t.isPackage p = true := by
  obtain ⟨hdir, hinit⟩ := Bool.and_eq_true_iff.1 h
  simp [isPackage, hdir, hinit]

/-- A package goes by the name of its directory. -/
theorem moduleAt?_of_isPackage {p : Path} (hp : p.fileName = some name) (h : t.isPackage p = true) :
    t.moduleAt? p = some (name, .source) := by
  simp [moduleAt?, hp, h]

/-- A directory can be listed. -/
theorem exists_list_of_isDir {p : Path} (h : t.isDir p = true) : ∃ names, t.list p = .ok names := by
  unfold isDir read? at h
  split at h
  next place hplace =>
    have hc : t.content? place = some .directory := by simpa using h
    refine ⟨(t.childNames place).mergeSort fun a b => decide (a ≤ b), ?_⟩
    simp only [list, hplace, hc, bind, Except.bind]
  next => cases h

/-- Nothing else can. -/
theorem isDir_of_list {p : Path} {names : List String} (h : t.list p = .ok names) : t.isDir p = true := by
  unfold list at h
  cases hl : t.locate p with
  | error err => simp [hl, bind, Except.bind] at h
  | ok place =>
    simp only [hl, bind, Except.bind] at h
    split at h
    next hc => simp [isDir, read?, hl, hc]
    · cases h
    · cases h

/-- What is neither a file nor a directory cannot be read. -/
theorem exists_readText_eq_error {p : Path} (hf : t.isFile p = false) (hd : t.isDir p = false) :
    ∃ cause, t.readText p = .error cause := by
  cases hl : t.locate p with
  | error cause => exact ⟨cause, by simp [readText, hl, bind, Except.bind]⟩
  | ok place =>
    refine ⟨.notFound, ?_⟩
    simp only [isFile, isDir, read?, hl] at hf hd
    cases hc : t.content? place with
    | none => simp [readText, hl, hc, bind, Except.bind]
    | some c => cases c <;> simp [hc] at hf hd

variable (hdir : dir.isAbsolute = true) (hn : Path.IsStep name) (hne : name ≠ "..")

include hdir hn hne

/-- There is no module at a directory that is no package. -/
theorem moduleAt?_of_isDir (h : t.isDir (dir.child name) = true) (hp : t.isPackage (dir.child name) = false) :
    t.moduleAt? (dir.child name) = none := by
  simp [moduleAt?, Path.fileName_child hdir hn hne, h, hp]

/-- What is no directory and ends like a source goes by its name up to the first dot, if there is something in front. -/
theorem moduleAt?_of_endsWith (h : t.isDir (dir.child name) = false) (hs : Text.endsWith name sourceSuffix = true) :
    t.moduleAt? (dir.child name) = if stem name = "" then none else some (stem name, .source) := by
  have hp : t.isPackage (dir.child name) = false := by simp [isPackage, h]
  simp [moduleAt?, Path.fileName_child hdir hn hne, h, hp, kindOfName?, hs]

end FileTree

/-- The target of a request is at the place that is asked for, unless that is an init entry. -/
theorem BuildRequest.identity_target {r : BuildRequest} {t : FileTree} (hw : t.workDir.isAbsolute = true)
    (h : r.file.path.isAbsolute = true) (hi : r.file.isInitEntry = false) : (r.target t).1.identity = r.identity := by
  have hplace : r.file.place = r.file.path.components :=
    ModuleFile.place_of_ne (by simpa [ModuleFile.isInitEntry] using hi)
  by_cases hd : t.isDir r.file.path
  · by_cases hinit : t.hasInitEntry r.file.path
    · simp only [target, hd, hinit, if_true, ModuleRecord.identity, ModuleRecord.key, ModuleKey.identity, identity, hplace,
        ModuleFile.place_child_initEntry hw h]
    · simp only [target, hd, hinit, if_true, Bool.false_eq_true, if_false]
      rfl
  · simp only [target, hd, hi, Bool.false_eq_true, if_false]
    rfl

/-! ## Trees out of files -/

namespace FileTree

/-- Puts files into a tree, with the directories above them. -/
def addAll (t : FileTree) (files : List (Place × Content)) : FileTree :=
  files.foldl (fun t file => t.add file.1 file.2) t

/-- A tree stays as a disk can hold it when files are put into it. -/
theorem IsWellFormed.addAll {t : FileTree} (ht : t.IsWellFormed) {files : List (Place × Content)}
    (h : ∀ file ∈ files, ∀ name ∈ file.1, Path.IsStep name ∧ name ≠ "..") : (t.addAll files).IsWellFormed := by
  induction files generalizing t with
  | nil => exact ht
  | cons file files ih =>
    have hfile := ht.add file.2 (h file List.mem_cons_self)
    exact ih hfile fun other hmem => h other (List.mem_cons_of_mem file hmem)

/-- A tree with a package that has these empty files below it. -/
def packageOf (files : List Place) : FileTree :=
  files.foldl (fun t file => t.add (["w", "pkg"] ++ file) (.text ""))
    ((empty ⟨"/w"⟩).add ["w", "pkg", initEntry] (.text ""))

/-- The tree of some files is as a disk can hold it. -/
theorem isWellFormed_packageOf {files : List Place} (h : ∀ file ∈ files, ∀ name ∈ file, Path.IsStep name ∧ name ≠ "..") :
    (packageOf files).IsWellFormed := by
  have hpkg : ∀ name ∈ ["w", "pkg"], Path.IsStep name ∧ name ≠ ".." := by decide
  have hfiles : ∀ file ∈ files.map fun file => (["w", "pkg"] ++ file, Content.text ""),
      ∀ name ∈ file.1, Path.IsStep name ∧ name ≠ ".." := by
    intro file hfile name hname
    obtain ⟨below, hbelow, rfl⟩ := List.mem_map.1 hfile
    rcases List.mem_append.1 hname with hname | hname
    · exact hpkg name hname
    · exact h below hbelow name hname
  have hbase : ((empty ⟨"/w"⟩).add ["w", "pkg", initEntry] (.text "")).IsWellFormed :=
    (isWellFormed_empty (by decide) (by decide)).add _ (by decide)
  have hwell := hbase.addAll hfiles
  rwa [addAll, List.foldl_map] at hwell

end FileTree

/-- An engine over the sources of a tree. -/
def Engine.overSources (tree : FileTree) : Engine (List Identity) where
  policy := { options := {}, followTo := [], nofollowTo := [], bytecodeModules := [] }
  tree
  builder := .ofSources {} tree

end ImportClosure
