import ImportClosure.Proofs.Names
import ImportClosure.Proofs.Rooted

/-!
# What a lookup finds goes by the name that was looked up

A dotted name is found below a directory only if the packages around it are, and the file that it comes to is the module of
its last component, of the kind that the lookup says (`lookup_closed_and_faithful`): a walk that comes to the file, or to the
directory of the package, makes the same of it. Files are looked up by five ways in a fixed order and classified by their
names alone, with the suffixes in an order of their own.
-/

namespace ImportClosure

/-! ## Names -/

/-- What may stand in an import holds neither dots nor slashes. -/
theorem Text.not_mem_of_isIdentifier {s : String} (h : isIdentifier s = true) {c : Char} (hc : c = '.' ∨ c = '/') :
    c ∉ s.toList := by
  have hletter : (c == '_' || isAlphabetic c) = false ∧ (c == '_' || isAlphabetic c || isNumeric c) = false := by
    rcases hc with rfl | rfl <;> decide
  unfold isIdentifier at h
  split at h
  · cases h
  next first rest hs =>
    rw [Bool.and_eq_true] at h
    rw [hs, List.mem_cons, not_or]
    refine ⟨?_, fun hmem => ?_⟩
    · rintro rfl
      exact Bool.false_ne_true (hletter.1.symm.trans h.1)
    · exact Bool.false_ne_true (hletter.2.symm.trans (List.all_eq_true.1 h.2 c hmem))

/-- An identifier is not empty. -/
theorem Text.ne_of_isIdentifier {s : String} (h : isIdentifier s = true) : s ≠ "" := by
  rintro rfl
  cases h

namespace FileTree

variable {t : FileTree} {dir p : Path} {x : String} {f : ModuleFile} {kind : ModuleKind}

/-- A name with the suffix of sources is that of a source. -/
theorem kindOfName?_append_sourceSuffix (x : String) : kindOfName? (x ++ sourceSuffix) = some .source := by
  have hend : Text.endsWith (x ++ sourceSuffix) sourceSuffix = true := by
    simp [Text.endsWith, List.isSuffixOf_iff_suffix]
  rw [kindOfName?, if_pos hend]

/-- A name with the suffix of bytecode is that of bytecode. -/
theorem kindOfName?_append_bytecodeSuffix (x : String) : kindOfName? (x ++ bytecodeSuffix) = some .bytecode := by
  have hend : Text.endsWith (x ++ bytecodeSuffix) bytecodeSuffix = true := by
    simp [Text.endsWith, List.isSuffixOf_iff_suffix]
  have hsource : Text.endsWith (x ++ bytecodeSuffix) sourceSuffix = false := by
    rw [← Bool.not_eq_true, Text.endsWith, List.isSuffixOf_iff_suffix]
    rintro ⟨front, hfront⟩
    have hlast := congrArg List.getLast? hfront
    simp [sourceSuffix, bytecodeSuffix] at hlast
  rw [kindOfName?, if_neg (by simp [hsource]), if_pos hend]

/-- A file goes by its name up to the first dot and the kind of its suffix. -/
theorem moduleAt?_of_isFile (h : t.isFile p = true) : t.moduleAt? p = p.fileName.bind fun name =>
    if stem name == "" then none else (kindOfName? name).map fun kind => (stem name, kind) := by
  have hdir := isDir_of_isFile h
  have hpackage : t.isPackage p = false := by simp [isPackage, hdir]
  simp [moduleAt?, hdir, hpackage]

end FileTree

/-! ## One name in a directory -/

namespace Path

variable {w p : Path} {name : String}

/-- A name in a directory is a name in the directory that the path from the root begins with. -/
theorem exists_absolute_child (hw : w.isAbsolute = true) (p : Path) (hn : IsStep name) :
    ∃ base : Path, base.isAbsolute = true ∧ (p.child name).absolute w = base.child name := by
  by_cases hp : p.text = ""
  · refine ⟨w, hw, ?_⟩
    obtain ⟨c, hc, hname⟩ := hn.exists_component
    have hne : name ≠ "" := by
      rintro rfl
      exact absurd hn.2 (by decide)
    have hchild : p.child name = ⟨name⟩ := by
      rw [child, join, hn.isAbsolute_eq, hp]
      simp
    have hsteps : ((⟨name⟩ : Path).components.filter fun step => step != .root && step != .here) = [c] := by
      rw [filter_components, fields, Text.fields_of_not_mem hn.1, List.filterMap_cons_some hc, List.filterMap_nil]
    have hend : Text.endsWith name "/" = false := by
      rw [← Bool.not_eq_true, Text.endsWith, List.isSuffixOf_iff_suffix]
      exact fun hsuffix => hn.1 (hsuffix.subset List.mem_cons_self)
    rw [hchild, absolute, hsteps, hn.isAbsolute_eq, hend, if_neg (by simpa using hne)]
    simp only [below, List.foldl_cons, List.foldl_nil, hname]
    rfl
  · exact ⟨p.absolute w, (absolute_spec hw hp).1, absolute_child hw hp hn⟩

end Path

namespace FileTree

variable {t : FileTree} {dir : Path} {x : String} {f : ModuleFile} {kind : ModuleKind}

/-- What is found for a name in a directory is the module of the directory of that name, or a file in the directory that
goes by the name and the kind that is said. -/
theorem exists_file_of_locateLeaf (ht : t.IsWellFormed) (hdot : '.' ∉ x.toList) (hslash : '/' ∉ x.toList)
    (h : t.locateLeaf dir x = some (f, kind)) : t.moduleAtDirectory? (dir.child x) = some (f, kind) ∨
      ∃ file, (Path.IsStep file ∧ file ≠ "..") ∧ t.isFile (dir.child file) = true ∧
        f = .ofPath t.workDir (dir.child file) ∧ stem file = x ∧ kindOfName? file = some kind := by
  rcases locateLeaf_eq_some h with h | ⟨_, h | h | h⟩
  · exact Or.inl h
  · obtain ⟨hfile, hf, rfl⟩ := fileWithSuffix?_eq_some h
    exact Or.inr ⟨_, Path.isStep_append (Or.inl rfl) hslash, hfile, hf, stem_append hdot "py",
      kindOfName?_append_sourceSuffix x⟩
  · obtain ⟨names, file, hl, hmem, _, hof, hf, rfl⟩ := extensionIn?_eq_some h
    have hstep := ht.of_lists ⟨names, hl, hmem⟩
    obtain ⟨hfile, hat⟩ := Bool.and_eq_true_iff.1 hof
    rw [beq_iff_eq, moduleAt?_of_isFile hfile] at hat
    obtain ⟨last, hlast, hat⟩ := Option.bind_eq_some_iff.1 hat
    -- the last name of the path is that of the file, also if the directory is relative
    obtain ⟨base, hbase, hchild⟩ := Path.exists_absolute_child ht.isAbsolute dir hstep.1
    have habs := Path.fileName_absolute ht.isAbsolute hlast
    rw [hchild, Path.fileName_child hbase hstep.1 hstep.2] at habs
    obtain rfl := Option.some.inj habs
    split at hat
    · cases hat
    · obtain ⟨kind, hkind, heq⟩ := Option.map_eq_some_iff.1 hat
      obtain ⟨hstem, rfl⟩ := Prod.mk.inj heq
      exact Or.inr ⟨file, hstep, hfile, hf, hstem, hkind⟩
  · obtain ⟨hfile, hf, rfl⟩ := fileWithSuffix?_eq_some h
    exact Or.inr ⟨_, Path.isStep_append (Or.inr rfl) hslash, hfile, hf, stem_append hdot "pyc",
      kindOfName?_append_bytecodeSuffix x⟩

/-- A file in a directory is classified by its name, by the path from the root as well. -/
theorem moduleAt?_identity_of_isFile (ht : t.IsWellFormed) {file : String} (hstep : Path.IsStep file ∧ file ≠ "..")
    (hfile : t.isFile (dir.child file) = true) (hne : x ≠ "") (hinit : x ≠ "__init__") (hstem : stem file = x)
    (hkind : kindOfName? file = some kind) :
    t.moduleAt? (ModuleFile.ofPath t.workDir (dir.child file)).identity = some (x, kind) := by
  obtain ⟨base, hbase, hchild⟩ := Path.exists_absolute_child ht.isAbsolute dir hstep.1
  have hname : ((dir.child file).absolute t.workDir).fileName = some file := by
    rw [hchild, Path.fileName_child hbase hstep.1 hstep.2]
  have hentry : (ModuleFile.ofPath t.workDir (dir.child file)).isInitEntry = false := by
    rw [ModuleFile.isInitEntry, ModuleFile.ofPath, hname, beq_eq_false_iff_ne]
    intro heq
    rw [Option.some.inj heq] at hstem
    exact hinit (hstem.symm.trans (by decide))
  have hdir := isDir_absolute_of_isFile ht hfile
  have hpackage : t.isPackage ((dir.child file).absolute t.workDir) = false := by simp [isPackage, hdir]
  rw [ModuleFile.identity, hentry, if_neg Bool.false_ne_true, ModuleFile.ofPath, moduleAt?, hname]
  simp [hpackage, hdir, hstem, hne, hkind]

/-- The module of a package directory is classified by the directory that it stands for. -/
theorem moduleAt?_identity_of_moduleAtDirectory? (ht : t.IsWellFormed) (hx : Path.IsStep x ∧ x ≠ "..")
    (hinit : x ≠ initEntry) (h : t.moduleAtDirectory? (dir.child x) = some (f, kind))
    (hex : t.exists? f.path = true) : t.moduleAt? f.identity = some (x, kind) := by
  obtain ⟨base, hbase, hchild⟩ := Path.exists_absolute_child ht.isAbsolute dir hx.1
  have hname : (base.child x).fileName = some x := Path.fileName_child hbase hx.1 hx.2
  unfold moduleAtDirectory? at h
  split at h
  · cases h
  next hpackage =>
    rw [Bool.not_eq_true', Bool.not_eq_false] at hpackage
    have hdir := isDir_of_isPackage hpackage
    split at h
    next hentry =>
      cases h
      have hparent := Path.parent?_child_child hbase hx.1 Path.isStep_initEntry
      have hlast : ((base.child x).child initEntry).fileName = some initEntry :=
        Path.fileName_child (Path.isAbsolute_child hbase x) Path.isStep_initEntry (by decide)
      have hpath : ((dir.child x).child initEntry).absolute t.workDir = (base.child x).child initEntry := by
        rw [Path.absolute_child ht.isAbsolute (text_ne_of_exists? (exists?_of_isDir hdir)) Path.isStep_initEntry, hchild]
      have hid : (ModuleFile.ofPath t.workDir ((dir.child x).child initEntry)).identity = base.child x := by
        rw [ModuleFile.identity, ModuleFile.isInitEntry, ModuleFile.ofPath, hpath, hlast, beq_self_eq_true, if_pos rfl,
          hparent, Option.getD_some]
      have hfile : t.isFile ((base.child x).child initEntry) = true := hpath ▸ isFile_absolute ht hentry hex
      obtain ⟨names, hnames⟩ := exists_list_of_parent? (Path.isAbsolute_child (Path.isAbsolute_child hbase x) _) hparent
        (exists?_of_isFile hfile)
      rw [hid]
      refine moduleAt?_of_isPackage hname (isPackage_of_isRealPackage ?_)
      rw [isRealPackage, isDir_of_list hnames, hasInitEntry, hfile, Bool.and_self]
    next hentry =>
      cases h
      have hid : (ModuleFile.ofPath t.workDir (dir.child x)).identity = base.child x := by
        rw [ModuleFile.identity, ModuleFile.isInitEntry, ModuleFile.ofPath, hchild, hname, if_neg]
        simpa using hinit
      have hdir' : t.isDir (base.child x) = true := hchild ▸ isDir_absolute ht hdir hex
      -- a directory without init entry is a package for its name, which it has by the path from the root as well
      rw [isPackage, hdir, Bool.true_and, Bool.or_eq_true, or_iff_right hentry, Option.any_eq_true] at hpackage
      obtain ⟨last, hlast, hstands⟩ := hpackage
      have habs := Path.fileName_absolute ht.isAbsolute hlast
      rw [hchild, hname] at habs
      rw [hid]
      refine moduleAt?_of_isPackage hname ?_
      rw [isPackage, hdir', hname, Option.any_some, Option.some.inj habs, hstands, Bool.or_true, Bool.and_self]

/-- What is found for a name in a directory is classified as the name and the kind that is said. -/
theorem moduleAt?_identity_of_locateLeaf (ht : t.IsWellFormed) (hne : x ≠ "") (hdot : '.' ∉ x.toList)
    (hslash : '/' ∉ x.toList) (hinit : x ≠ "__init__") (h : t.locateLeaf dir x = some (f, kind))
    (hdir : dir.isAbsolute = true ∨ t.exists? f.path = true) : t.moduleAt? f.identity = some (x, kind) := by
  have hx := Path.isStep_of_not_mem hne hdot hslash
  rcases exists_file_of_locateLeaf ht hdot hslash h with h | ⟨file, hstep, hfile, rfl, hstem, hkind⟩
  · refine moduleAt?_identity_of_moduleAtDirectory? ht hx ?_ h ?_
    · rintro rfl
      exact hdot (by decide)
    · rcases hdir with habs | hex
      · obtain ⟨p, rfl, hp⟩ := directoryModule h
        cases hp with
        | entry hentry =>
          exact exists?_absolute_child (Path.isAbsolute_child habs x) Path.isStep_initEntry (exists?_of_isFile hentry)
        | bare hbare => exact exists?_absolute_child habs hx.1 (exists?_of_isDir hbare)
      · exact hex
  · exact moduleAt?_identity_of_isFile ht hstep hfile hne hinit hstem hkind

end FileTree

/-! ## Dotted names -/

/-- What is found for a dotted name of words below a directory. The packages around the name are found there as well, and
the file that is found, or the directory of the package whose init entry it is, is the module of the last word, of the kind
that was found, wherever its path from the root can be followed. Below an absolute directory it always can; the working
directory may be so far below the root that a path from the root to what is found below a relative one is too long. -/
theorem lookup_closed_and_faithful {t : FileTree} {dir : Path} {name : ModuleName} {f : ModuleFile} {kind : ModuleKind}
    (ht : t.IsWellFormed) (hwords : ∀ word ∈ name.components, Text.isIdentifier word = true ∧ word ≠ "__init__")
    (h : t.locateIn dir name.text = some (f, kind)) :
    (∀ package : ModuleName, name.isBelow package.text = true → (t.locateIn dir package.text).isSome = true) ∧
      (dir.isAbsolute = true ∨ t.exists? f.path = true → t.moduleAt? f.identity = some (name.basename, kind)) := by
  constructor
  · intro package hbelow
    obtain ⟨more, _, hmore⟩ := ModuleName.exists_components_of_isBelow hbelow
    have hsome : (t.locateComponents dir (package.components ++ more)).isSome := by
      rw [← hmore]
      exact Option.isSome_of_eq_some h
    exact FileTree.isSome_locateComponents_of_append package.components_ne_nil hsome
  · intro hdir
    obtain ⟨front, x, hcomp⟩ := name.exists_components_eq_concat
    have hbase : name.basename = x := by rw [ModuleName.basename, hcomp, List.getLast?_concat, Option.getD_some]
    obtain ⟨hword, hinit⟩ := hwords x (hcomp ▸ List.mem_concat_self)
    have hleaf : t.locateLeaf (dir.down front) x = some (f, kind) := by
      refine (FileTree.locateLeaf_of_locateComponents ?_).1
      rw [← hcomp]
      exact h
    rw [hbase]
    exact FileTree.moduleAt?_identity_of_locateLeaf ht (Text.ne_of_isIdentifier hword)
      (Text.not_mem_of_isIdentifier hword (Or.inl rfl)) (Text.not_mem_of_isIdentifier hword (Or.inr rfl)) hinit hleaf
      (hdir.imp_left fun habs => Path.isAbsolute_down habs front)

/-- An extension module in a directory without init entry, in a package. -/
theorem lookup_closed_and_faithful_extension :
    let t := FileTree.packageOf [["sub", "leaf.abi3.so"]]
    (t.locateIn ⟨"/w"⟩ "pkg.sub").isSome = true ∧ (t.locateIn ⟨"/w"⟩ "pkg").isSome = true ∧
      t.moduleAt? ⟨"/w/pkg/sub/leaf.abi3.so"⟩ = some ("leaf", .extension) := by
  intro t
  have ht : t.IsWellFormed := FileTree.isWellFormed_packageOf (by decide)
  have hfound : t.locateIn ⟨"/w"⟩ (⟨"pkg.sub.leaf"⟩ : ModuleName).text =
      some (⟨⟨"/w/pkg/sub/leaf.abi3.so"⟩⟩, .extension) := by decide +kernel
  have hlookup := lookup_closed_and_faithful ht (by decide) hfound
  refine ⟨hlookup.1 ⟨"pkg.sub"⟩ (by decide), hlookup.1 ⟨"pkg"⟩ (by decide), ?_⟩
  have hidentity : (⟨⟨"/w/pkg/sub/leaf.abi3.so"⟩⟩ : ModuleFile).identity = ⟨"/w/pkg/sub/leaf.abi3.so"⟩ := by
    decide +kernel
  have hname : (⟨"pkg.sub.leaf"⟩ : ModuleName).basename = "leaf" := by decide
  rw [← hname, ← hidentity]
  exact hlookup.2 (Or.inl (by decide))

end ImportClosure
