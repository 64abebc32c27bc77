import ImportClosure.Proofs.Contained

/-!
# Relative imports

A relative import goes out of the packages around its module, directory by directory, and then down along its path. An
absolute import goes down from the directory that was searched, and looks at every directory on the way again. Both come to
the same where the module itself was found from that directory (`relative_eq_absolute`): the directories around the module
are those that its name leads through, and they have been found to be packages.
-/

namespace ImportClosure

/-! ## Names out of words -/

namespace ModuleName

variable {words front : List String} {x : String}

/-- The name that has these components. -/
def ofWords (words : List String) : ModuleName :=
  ⟨Text.unfields '.' words⟩

theorem components_ofWords (hne : words ≠ []) (hdot : ∀ word ∈ words, '.' ∉ word.toList) :
    (ofWords words).components = words :=
  Text.fields_unfields hne hdot

theorem ofWords_components (n : ModuleName) : ofWords n.components = n :=
  congrArg mk (Text.unfields_fields '.' n.text)

/-- The package around a name has all words but the last. -/
theorem package?_ofWords (hne : front ≠ []) (hdot : ∀ word ∈ front ++ [x], '.' ∉ word.toList) :
    (ofWords (front ++ [x])).package? = some (ofWords front) := by
  refine package?_eq_some_iff.2 ⟨x, ?_⟩
  rw [components_ofWords (by simp) hdot, components_ofWords hne fun word hword => hdot word (List.mem_append_left _ hword)]

/-- A name of one word lies in no package. -/
theorem package?_ofWords_singleton (hdot : '.' ∉ x.toList) : (ofWords [x]).package? = none := by
  have hcomp : (ofWords [x]).components = [x] := components_ofWords (List.cons_ne_nil _ _) (by simpa using hdot)
  unfold package?
  rw [hcomp]

theorem child_ofWords (hne : words ≠ []) (hdot : ∀ word ∈ words, '.' ∉ word.toList) (path : String) :
    (ofWords words).child path = ofWords (words ++ Text.fields '.' path) := by
  refine eq_of_components ?_
  rw [components_child, components_ofWords hne hdot, components_ofWords (by simp [hne])]
  intro word hword
  exact (List.mem_append.1 hword).elim (hdot word) Text.not_mem_of_mem_fields

end ModuleName

/-! ## Ways through packages -/

namespace FileTree

variable {t : FileTree} {dir : Path} {words base rest : List String} {x : String}

/-- The directories that words lead to from a directory, one after the other, are packages. -/
def LeadsThrough (t : FileTree) (dir : Path) (words : List String) : Prop :=
  ∀ front, front <+: words → front ≠ [] → t.isPackage (dir.down front) = true

theorem LeadsThrough.of_prefix (h : t.LeadsThrough dir words) (hb : base <+: words) : t.LeadsThrough dir base :=
  fun front hfront => h front (hfront.trans hb)

theorem LeadsThrough.concat (h : t.LeadsThrough dir words) (hp : t.isPackage (dir.down (words ++ [x])) = true) :
    t.LeadsThrough dir (words ++ [x]) := by
  intro front hfront hne
  rcases List.prefix_concat_iff.1 hfront with rfl | hfront
  · exact hp
  · exact h front hfront hne

theorem LeadsThrough.tail (h : t.LeadsThrough dir (x :: words)) : t.LeadsThrough (dir.child x) words :=
  fun front hfront _ => h (x :: front) (List.cons_prefix_cons.2 ⟨rfl, hfront⟩) (List.cons_ne_nil _ _)

/-- A name that is found leads through packages up to its last word. -/
theorem leadsThrough_of_locateComponents {found : Located} (h : t.locateComponents dir (words ++ [x]) = some found) :
    t.LeadsThrough dir words := by
  induction words generalizing dir with
  | nil => exact fun front hfront hne => absurd (List.prefix_nil.1 hfront) hne
  | cons word words ih =>
    rw [List.cons_append, locateComponents.eq_3 t dir word _ (by simp)] at h
    split at h
    · cases h
    next hword =>
      simp only [Bool.or_eq_true, beq_iff_eq, Bool.not_eq_true', not_or, Bool.not_eq_false] at hword
      intro front hfront hne
      cases front with
      | nil => exact absurd rfl hne
      | cons first front =>
        obtain ⟨rfl, hmore⟩ := List.cons_prefix_cons.1 hfront
        by_cases hnil : front = []
        · rw [hnil]
          exact hword.2
        · exact ih h front hmore hnil

/-- A name that is found and leads to a package leads through packages all the way. -/
theorem leadsThrough_of_isPackage {found : Located} (h : t.locateComponents dir words = some found)
    (hp : t.isPackage (dir.down words) = true) : t.LeadsThrough dir words := by
  rcases List.eq_nil_or_concat' words with rfl | ⟨front, x, rfl⟩
  · cases h
  · exact (leadsThrough_of_locateComponents h).concat hp

/-- Words that lead through packages can be gone first. -/
theorem locateComponents_append (hp : t.LeadsThrough dir base) (hne : ∀ word ∈ base, word ≠ "") (hrest : rest ≠ []) :
    t.locateComponents dir (base ++ rest) = t.locateComponents (dir.down base) rest := by
  induction base generalizing dir with
  | nil => rfl
  | cons word base ih =>
    have hword : t.isPackage (dir.child word) = true := hp [word] (by simp) (List.cons_ne_nil _ _)
    rw [List.cons_append, locateComponents.eq_3 t dir word _ (by simp [hrest]), if_neg]
    · exact ih hp.tail fun other hother => hne other (List.mem_cons_of_mem _ hother)
    · simp [hword, hne word List.mem_cons_self]

end FileTree

/-! ## Out of packages -/

namespace SearchPath

variable {w dir : Path} {words : List String}

/-- The directories of a search path are canonical, but for one that was given by no path at all. -/
theorem isCanonical_of_mem {t : FileTree} (ht : t.IsWellFormed) {dirs : List Path} {builtins : List String}
    (h : dir ∈ (ofDirs t.workDir dirs builtins).dirs) (hne : dir.text ≠ "") : dir.IsCanonical t.workDir := by
  obtain ⟨given, _, rfl⟩ := List.mem_map.1 h
  refine Path.isCanonical_absolute (ht.isPlain.isCanonical ht.isAbsolute) fun hempty => hne ?_
  rw [Path.absolute, if_pos (by simp [hempty]), hempty]

/-- The parent of where words lead to is where all words but the last lead to. -/
theorem parent?_down {front : List String} {x : String} (hd : dir.IsCanonical w) (hne : front ≠ [])
    (hsteps : ∀ word ∈ front ++ [x], Path.IsStep word ∧ word ≠ "..") :
    (dir.down (front ++ [x])).parent? = some (dir.down front) := by
  obtain ⟨first, y, rfl⟩ : ∃ first y, front = first ++ [y] := ⟨_, _, (List.dropLast_concat_getLast hne).symm⟩
  have hfirst : ∀ word ∈ first, Path.IsStep word ∧ word ≠ ".." := fun word hword => hsteps word (by simp [hword])
  rw [Path.down_concat, Path.down_concat]
  exact Path.parent?_child_child (hd.down hfirst).1 (hsteps y (by simp)).1 (hsteps x (by simp)).1

/-- Going out of packages drops the last words of the name and of the way, as long as there are any. -/
theorem climb_ofWords (hd : dir.IsCanonical w)
    (hsteps : ∀ word ∈ words, Path.IsStep word ∧ word ≠ "..") (hdot : ∀ word ∈ words, '.' ∉ word.toList)
    (hne : words ≠ []) (n : Nat) :
    climb n (.ofWords words, dir.down words) = if n < words.length then
      some (.ofWords (words.take (words.length - n)), dir.down (words.take (words.length - n))) else none := by
  induction n generalizing words with
  | zero => simp [climb, List.length_pos_iff.2 hne]
  | succ n ih =>
    obtain ⟨front, x, rfl⟩ : ∃ front x, words = front ++ [x] := ⟨_, _, (List.dropLast_concat_getLast hne).symm⟩
    unfold climb
    by_cases hfront : front = []
    · subst hfront
      rw [List.nil_append, ModuleName.package?_ofWords_singleton (hdot x (by simp))]
      simp
    · rw [ModuleName.package?_ofWords hfront hdot, parent?_down hd hfront hsteps]
      have hrest := ih (fun word hword => hsteps word (List.mem_append_left _ hword))
        (fun word hword => hdot word (List.mem_append_left _ hword)) hfront
      simp only [Option.bind_eq_bind, Option.bind_some, hrest, List.length_append, List.length_singleton,
        Nat.add_lt_add_iff_right, Nat.add_sub_add_right]
      rw [List.take_append_of_le_length (Nat.sub_le _ _)]

end SearchPath

/-! ## The module that imports -/

/-- Whether a file stands for a package: it is a directory or an init entry. -/
def FileTree.isPackageFile (t : FileTree) (f : ModuleFile) : Bool :=
  t.isDir f.path || f.isInitEntry

/-- What is built for a file is a package if the file stands for one. -/
theorem BuildRequest.isPackage_target (r : BuildRequest) (t : FileTree) :
    (r.target t).1.isPackage = t.isPackageFile r.file := by
  unfold target FileTree.isPackageFile
  by_cases hd : t.isDir r.file.path
  · by_cases hi : t.hasInitEntry r.file.path <;> simp [hd, hi]
  · by_cases hi : r.file.isInitEntry <;> simp [hd, hi]

/-- The files that stand for packages are those that have a package directory. -/
theorem SearchPath.isSome_packageDir? (t : FileTree) (f : ModuleFile) : (packageDir? t f).isSome = t.isPackageFile f := by
  unfold packageDir? FileTree.isPackageFile
  cases hi : f.isInitEntry with
  | true =>
    obtain ⟨dir, hdir⟩ := Path.exists_parent? (p := f.path) (by simpa [ModuleFile.isInitEntry] using hi)
    simp [hdir]
  | false => cases t.isDir f.path <;> rfl

namespace ModuleRecord

/-- The words that the relative imports of a module start from: the name of a package, or that of the package around a
module. -/
def home (m : ModuleRecord) : List String :=
  if m.isPackage then m.name.components else m.name.components.dropLast

theorem home_subset (m : ModuleRecord) : m.home ⊆ m.name.components := by
  unfold home
  split
  · exact List.Subset.refl _
  · exact List.dropLast_subset _

/-- The absolute name that a relative import means, if it does not lead out of all packages. -/
def meant? (m : ModuleRecord) (i : ImportStatement) : Option ModuleName :=
  if i.level ≤ m.home.length then
    some (.ofWords (m.home.take (m.home.length + 1 - i.level) ++ Text.fields '.' i.path))
  else none

end ModuleRecord

section Importer

variable {t : FileTree} {dir : Path} {name : ModuleName} {f : ModuleFile} {kind : ModuleKind} {r : BuildRequest}

/-- The package that is built for what is found at a directory stands for this directory. -/
theorem BuildRequest.identity_target_of_directory {x : String} (hd : dir.IsCanonical t.workDir)
    (hx : Path.IsStep x ∧ x ≠ "..") (h : t.moduleAtDirectory? (dir.child x) = some (r.file, kind)) :
    (r.target t).1.file.identity = dir.child x := by
  have hcanonical := hd.child hx.1
  have hentry : ModuleFile.identity ⟨(dir.child x).child initEntry⟩ = dir.child x := by
    rw [ModuleFile.identity, ModuleFile.isInitEntry,
      Path.fileName_child hcanonical.1 Path.isStep_initEntry (by decide), beq_self_eq_true, if_pos rfl,
      Path.parent?_child_child hd.1 hx.1 Path.isStep_initEntry, Option.getD_some]
  obtain ⟨p, hp, hmodule⟩ := FileTree.directoryModule h
  cases hmodule with
  | entry hinit =>
    rw [ModuleFile.ofPath_of_isCanonical (hcanonical.child Path.isStep_initEntry)] at hp
    have hisinit : r.file.isInitEntry = true := by
      rw [hp, ModuleFile.isInitEntry, Path.fileName_child hcanonical.1 Path.isStep_initEntry (by decide), beq_self_eq_true]
    have hnodir : t.isDir r.file.path = false := by
      rw [hp]
      exact FileTree.isDir_of_isFile hinit
    rw [show (r.target t).1.file = r.file by simp [target, hnodir, hisinit], hp, hentry]
  | bare hdir hne =>
    rw [ModuleFile.ofPath_of_isCanonical hcanonical] at hp
    by_cases hinit : t.hasInitEntry r.file.path
    · rw [show (r.target t).1.file = .ofPath t.workDir (r.file.path.child initEntry) by
        simp [target, hinit, show t.isDir r.file.path = true by rw [hp]; exact hdir], hp,
        ModuleFile.ofPath_of_isCanonical (hcanonical.child Path.isStep_initEntry), hentry]
    · rw [show (r.target t).1.file = r.file by
        simp [target, hinit, show t.isDir r.file.path = true by rw [hp]; exact hdir], hp, ModuleFile.identity, if_neg]
      rwa [ModuleFile.isInitEntry, beq_iff_eq]

/-- What is built as no package starts from the package around its name, and the directory around its file. -/
theorem BuildRequest.homePackage?_target (h : (r.target t).1.isPackage = false) :
    SearchPath.homePackage? (r.target t).1 =
      r.name.package?.bind fun package => r.file.path.parent?.map fun parent => (package, parent) := by
  rcases r.target_spec t with ⟨hrecord, _⟩ | ⟨htrue, _⟩
  · rw [hrecord]
    unfold SearchPath.homePackage?
    cases r.name.package? <;> cases r.file.path.parent? <;> rfl
  · cases htrue.symm.trans h

/-- The relative imports of what is built for a module file start from the directory that it lies in, unless that is the
one that names are looked up from. -/
theorem BuildRequest.homePackage?_of_file {front : List String} {x file : String} (hd : dir.IsCanonical t.workDir)
    (hname : r.name.components = front ++ [x]) (hsteps : ∀ word ∈ front ++ [file], Path.IsStep word ∧ word ≠ "..")
    (hfile : r.file = .ofPath t.workDir ((dir.down front).child file)) (h : (r.target t).1.isPackage = false) :
    SearchPath.homePackage? (r.target t).1 = if front = [] then none else some (.ofWords front, dir.down front) := by
  have hdot : ∀ word ∈ front ++ [x], '.' ∉ word.toList := hname ▸ fun _ => Text.not_mem_of_mem_fields
  rw [r.homePackage?_target h, ← r.name.ofWords_components, hname]
  by_cases hnil : front = []
  · subst hnil
    rw [if_pos rfl, List.nil_append, ModuleName.package?_ofWords_singleton (hdot x (by simp))]
    rfl
  · have hdown := hd.down fun word hword => hsteps word (List.mem_append_left _ hword)
    have hpath : r.file.path = dir.down (front ++ [file]) := by
      rw [hfile, ModuleFile.ofPath_of_isCanonical (hdown.child (hsteps file (by simp)).1), Path.down_concat]
    rw [if_neg hnil, ModuleName.package?_ofWords hnil hdot, hpath, SearchPath.parent?_down hd hnil hsteps]
    rfl

/-- The relative imports of a module start where the words of its home lead from a directory, through packages only; those
of a module in no package start nowhere. The words are those of names: no slash or dot in them, and no `__init__`. -/
structure FileTree.Houses (t : FileTree) (dir : Path) (m : ModuleRecord) : Prop where
  start : SearchPath.homePackage? m = if m.home = [] then none else some (.ofWords m.home, dir.down m.home)
  through : t.LeadsThrough dir m.home
  steps : ∀ word ∈ m.home, Path.IsStep word ∧ word ≠ ".."
  dotless : ∀ word ∈ m.home, '.' ∉ word.toList
  plain : ∀ word ∈ m.home, '/' ∉ word.toList ∧ word ≠ "__init__"

/-- A directory from which a module is found houses what is built for it. -/
theorem FileTree.houses_of_found (ht : t.IsWellFormed) (hd : dir.IsCanonical t.workDir)
    (hwords : ∀ word ∈ r.name.components, '/' ∉ word.toList ∧ word ≠ "__init__")
    (h : t.locateIn dir r.name.text = some (r.file, kind)) : t.Houses dir (r.target t).1 := by
  have hsteps : ∀ word ∈ r.name.components, Path.IsStep word ∧ word ≠ ".." :=
    FindsAt.steps ⟨kind, h⟩ fun word hword => (hwords word hword).1
  have hname := r.name_target t
  have hhome : (r.target t).1.home ⊆ r.name.components := hname ▸ (r.target t).1.home_subset
  suffices hstarts : SearchPath.homePackage? (r.target t).1 = (if (r.target t).1.home = [] then none
      else some (.ofWords (r.target t).1.home, dir.down (r.target t).1.home)) ∧
      t.LeadsThrough dir (r.target t).1.home from
    ⟨hstarts.1, hstarts.2, fun word hword => hsteps word (hhome hword),
      fun word hword => Text.not_mem_of_mem_fields (hhome hword), fun word hword => hwords word (hhome hword)⟩
  obtain ⟨front, x, hcomp⟩ := r.name.exists_components_eq_concat
  have hlocate : t.locateComponents dir (front ++ [x]) = some (r.file, kind) := hcomp ▸ h
  have hx : x ∈ r.name.components := hcomp ▸ List.mem_concat_self
  have hfront : ∀ word ∈ front, Path.IsStep word ∧ word ≠ ".." := fun word hword =>
    hsteps word (hcomp ▸ List.mem_append_left _ hword)
  have hdown := hd.down hfront
  have hpackage := r.isPackage_target t
  rw [← SearchPath.isSome_packageDir?] at hpackage
  rcases of_locateLeaf (locateLeaf_of_locateComponents hlocate).1 with hdirectory | ⟨_, file, hfile, hr⟩
  · -- the file stands for the directory that the whole name leads to
    obtain ⟨hat, hp⟩ := packageDir?_of_moduleAtDirectory? hdown (hsteps x hx).1 hdirectory
    rw [hat, Option.isSome_some] at hpackage
    rw [show (r.target t).1.home = r.name.components by rw [ModuleRecord.home, if_pos hpackage, hname]]
    refine ⟨?_, leadsThrough_of_isPackage h (by rwa [hcomp, Path.down_concat])⟩
    rw [SearchPath.homePackage?, if_pos hpackage, if_neg r.name.components_ne_nil, hname,
      r.identity_target_of_directory hdown (hsteps x hx) hdirectory, ModuleName.ofWords_components, hcomp,
      Path.down_concat]
  · -- the file lies in the directory that the name of the package leads to, if there is a package
    obtain ⟨hslash, hinit⟩ := hwords x hx
    rw [hr, hfile.packageDir? ht hdown hslash hinit, Option.isSome_none] at hpackage
    rw [show (r.target t).1.home = front by
      rw [ModuleRecord.home, hpackage, if_neg Bool.false_ne_true, hname, hcomp, List.dropLast_concat]]
    refine ⟨r.homePackage?_of_file hd hcomp (fun word hword => ?_) hr hpackage,
      leadsThrough_of_locateComponents hlocate⟩
    rcases List.mem_append.1 hword with hword | hword
    · exact hfront word hword
    · exact List.mem_singleton.1 hword ▸ (hfile.step ht hdown.1 hslash hinit).1

/-- The module of a relative import is looked up where the first words of the home lead, as many as the level leaves, under
the name that the import means. -/
theorem FileTree.Houses.relativeBase?_eq {m : ModuleRecord} (h : t.Houses dir m) (hd : dir.IsCanonical t.workDir)
    {i : ImportStatement} (hlevel : 1 ≤ i.level) (hpath : i.path ≠ "") :
    SearchPath.relativeBase? m i =
      (m.meant? i).map fun meant => (meant, dir.down (m.home.take (m.home.length + 1 - i.level))) := by
  unfold SearchPath.relativeBase? ModuleRecord.meant?
  rw [h.start]
  by_cases hnil : m.home = []
  · have hzero : i.level ≠ 0 := by omega
    simp [hnil, hzero]
  rw [if_neg hnil]
  simp only [Option.bind_eq_bind, Option.bind_some, SearchPath.climb_ofWords hd h.steps h.dotless hnil]
  by_cases hle : i.level ≤ m.home.length
  · have hlt : i.level - 1 < m.home.length := by omega
    have hlen : m.home.length - (i.level - 1) = m.home.length + 1 - i.level := by omega
    have htake : m.home.take (m.home.length + 1 - i.level) ≠ [] := by
      simp only [ne_eq, List.take_eq_nil_iff, hnil, or_false]
      omega
    have hdotless : ∀ word ∈ m.home.take (m.home.length + 1 - i.level), '.' ∉ word.toList := fun word hword =>
      h.dotless word (List.mem_of_mem_take hword)
    simp [hlt, hle, hlen, hpath, ModuleName.child_ofWords htake hdotless]
  · have hlt : ¬ i.level - 1 < m.home.length := by omega
    simp [hlt, hle]

end Importer

/-! ## Down the path of the import -/

/-- The edges of an import by the absolute name of its module, looked up from one directory: to the module, and to the
modules among the imported names if it is a package. -/
def FileTree.edgesFrom (t : FileTree) (dir : Path) (name : ModuleName) (i : ImportStatement) (at_ : SourceRef) :
    List ImportEdge :=
  match t.locateIn dir name.text with
  | none => [.notFound name i.level at_]
  | some (file, kind) =>
    .found name file kind i.level at_ ::
      if t.isPackageFile file then
        i.names.filterMap fun member =>
          (t.locateIn dir (name.child member).text).map fun (file, kind) =>
            .found (name.child member) file kind i.level at_
      else []

section Lookup

variable {t : FileTree} {dir : Path} {name : ModuleName} {f : ModuleFile} {kind : ModuleKind}

/-- Below a name that leads through packages, a path is looked up from where the name leads. -/
theorem FileTree.locateIn_below (hp : t.LeadsThrough dir name.components) (hne : ∀ word ∈ name.components, word ≠ "")
    (path : String) : t.locateIn dir (name.child path).text = t.locateIn (dir.down name.components) path := by
  have hcomp : Text.fields '.' (name.child path).text = name.components ++ Text.fields '.' path :=
    name.components_child path
  have hrest : Text.fields '.' path ≠ [] := ModuleName.components_ne_nil ⟨path⟩
  rw [locateIn, hcomp, locateComponents_append hp hne hrest]
  rfl

/-- The members of a package that is found from a directory are those that are found from there under its name. -/
theorem SearchPath.memberEdges_of_found (ht : t.IsWellFormed) (hd : dir.IsCanonical t.workDir)
    (hwords : ∀ word ∈ name.components, '/' ∉ word.toList ∧ word ≠ "__init__")
    (h : t.locateIn dir name.text = some (f, kind)) (i : ImportStatement) (at_ : SourceRef) :
    memberEdges t name f i at_ =
      if t.isPackageFile f then
        i.names.filterMap fun member =>
          (t.locateIn dir (name.child member).text).map fun (file, kind) =>
            .found (name.child member) file kind i.level at_
      else [] := by
  rw [← isSome_packageDir?]
  unfold memberEdges
  rcases FileTree.FindsAt.packageDir? ht hd hwords ⟨kind, h⟩ with ⟨hat, hp⟩ | ⟨hnone, _⟩
  · have hthrough : t.LeadsThrough dir name.components := FileTree.leadsThrough_of_isPackage h hp
    simp only [hat, Option.isSome_some, if_true]
    refine List.filterMap_congr fun member _ => ?_
    rw [FileTree.locateIn_below hthrough (FileTree.ne_of_locateComponents h)]
  · rw [hnone]
    rfl

/-- A path that is looked up where words lead, through packages only, comes to the edges of its absolute name. -/
theorem FileTree.edgesFrom_ofWords {base : List String} (ht : t.IsWellFormed) (hd : dir.IsCanonical t.workDir)
    (hp : t.LeadsThrough dir base) (hne : base ≠ []) (hdotless : ∀ word ∈ base, '.' ∉ word.toList)
    (hsteps : ∀ word ∈ base, Path.IsStep word ∧ word ≠ "..") {i : ImportStatement}
    (hwords : ∀ word ∈ base ++ Text.fields '.' i.path, '/' ∉ word.toList ∧ word ≠ "__init__") (at_ : SourceRef) :
    let meant : ModuleName := .ofWords (base ++ Text.fields '.' i.path)
    (match t.locateIn (dir.down base) i.path with
      | none => [.notFound meant i.level at_]
      | some (file, kind) => .found meant file kind i.level at_ :: SearchPath.memberEdges t meant file i at_) =
      t.edgesFrom dir meant i at_ := by
  intro meant
  have hcomp : (ModuleName.ofWords base).components = base := ModuleName.components_ofWords hne hdotless
  have hmeant : meant = (ModuleName.ofWords base).child i.path := (ModuleName.child_ofWords hne hdotless i.path).symm
  have hnonempty : ∀ word ∈ base, word ≠ "" := by
    rintro word hword rfl
    exact absurd (hsteps "" hword).1.2 (by decide)
  have hlookup : t.locateIn dir meant.text = t.locateIn (dir.down base) i.path := by
    have hthrough : t.LeadsThrough dir (ModuleName.ofWords base).components := hcomp.symm ▸ hp
    have hbelow := locateIn_below hthrough (hcomp.symm ▸ hnonempty) i.path
    rwa [hcomp, ← hmeant] at hbelow
  have hmeantwords : ∀ word ∈ meant.components, '/' ∉ word.toList ∧ word ≠ "__init__" := by
    rw [hmeant, ModuleName.components_child, hcomp]
    exact hwords
  rw [← hlookup, edgesFrom]
  cases hfile : t.locateIn dir meant.text with
  | none => rfl
  | some located =>
    obtain ⟨file, kind⟩ := located
    simp only [SearchPath.memberEdges_of_found ht hd hmeantwords hfile]

/-- The relative imports of a module that a directory houses come to absolute ones. -/
theorem FileTree.Houses.resolveRelative_eq {m : ModuleRecord} (h : t.Houses dir m) (ht : t.IsWellFormed)
    (hd : dir.IsCanonical t.workDir) {i : ImportStatement} (hlevel : 1 ≤ i.level) (hpath : i.path ≠ "")
    (hwords : ∀ word ∈ Text.fields '.' i.path, '/' ∉ word.toList ∧ word ≠ "__init__") (at_ : SourceRef) :
    SearchPath.resolveRelative t m i at_ =
      match m.meant? i with
      | none => [.notFound ⟨String.ofList (List.replicate i.level '.') ++ i.path⟩ i.level at_]
      | some meant => t.edgesFrom dir meant i at_ := by
  rw [SearchPath.resolveRelative, h.relativeBase?_eq hd hlevel hpath]
  cases hmeant : m.meant? i with
  | none => rfl
  | some meant =>
    obtain ⟨hle, rfl⟩ : i.level ≤ m.home.length ∧
        .ofWords (m.home.take (m.home.length + 1 - i.level) ++ Text.fields '.' i.path) = meant := by
      simpa [ModuleRecord.meant?] using hmeant
    have hbase : ∀ word ∈ m.home.take (m.home.length + 1 - i.level), word ∈ m.home := fun _ => List.mem_of_mem_take
    have hne : m.home.take (m.home.length + 1 - i.level) ≠ [] := by
      rw [ne_eq, ← List.length_eq_zero_iff, List.length_take]
      omega
    have hall : ∀ word ∈ m.home.take (m.home.length + 1 - i.level) ++ Text.fields '.' i.path,
        '/' ∉ word.toList ∧ word ≠ "__init__" := fun word hword =>
      (List.mem_append.1 hword).elim (fun hword => h.plain word (hbase word hword)) (hwords word)
    simp only [Option.map_some, beq_iff_eq, hpath, if_false]
    exact edgesFrom_ofWords ht hd (h.through.of_prefix (List.take_prefix _ _)) hne
      (fun word hword => h.dotless word (hbase word hword)) (fun word hword => h.steps word (hbase word hword)) hall at_

end Lookup

/-- A relative import of a module that was found from a directory comes to an absolute one. The record is what is built for
the file that was found there under a name; the words of the names are without slashes and none is `__init__`, as with
identifiers. If the level leads out of the package at the top of the name there is one edge, which is not found. Otherwise
the edges are those to the absolute name that the import means, looked up from the directory: to the file of the kind that
is found there or none, and for a package to those of the imported names that are found there below it, in their order. -/
theorem relative_eq_absolute {t : FileTree} (ht : t.IsWellFormed) {dir : Path} (hd : dir.IsCanonical t.workDir)
    {name : ModuleName} (hname : ∀ word ∈ name.components, '/' ∉ word.toList ∧ word ≠ "__init__") {f : ModuleFile}
    (hfound : t.locateIn dir name.text = some (f, .source)) {s : SearchPath} {built : List Identity} {isTop hidden : Bool}
    {o : BuildOutcome} (ho : ((Builder.ofSources s t).build ⟨name, f, .source, isTop, hidden⟩ built).1.result = .ok (some o))
    {i : ImportStatement} (hlevel : 1 ≤ i.level) (hpath : i.path ≠ "")
    (hwords : ∀ word ∈ Text.fields '.' i.path, '/' ∉ word.toList ∧ word ≠ "__init__") :
    let at_ : SourceRef := ⟨o.record.file.path, i.line⟩
    o.record.name = name ∧ o.record.isPackage = t.isPackageFile f ∧
      s.resolve t o.record i =
        match o.record.meant? i with
        | none => [.notFound ⟨String.ofList (List.replicate i.level '.') ++ i.path⟩ i.level at_]
        | some meant => t.edgesFrom dir meant i at_ := by
  intro at_
  have hrecord := (Builder.given_of_ofSources ho).1
  have hhouses : t.Houses dir o.record := by
    rw [hrecord]
    exact FileTree.houses_of_found ht hd hname hfound
  have hrelative : s.resolve t o.record i = SearchPath.resolveRelative t o.record i at_ := by
    have hzero : (i.level == 0) = false := beq_eq_false_iff_ne.2 (by omega)
    simp [SearchPath.resolve, hzero, at_]
  refine ⟨?_, ?_, hrelative.trans (hhouses.resolveRelative_eq ht hd hlevel hpath hwords at_)⟩
  · rw [hrecord]
    exact BuildRequest.name_target _ t
  · rw [hrecord]
    exact BuildRequest.isPackage_target _ t

/-- The module `pkg.a.b.c` imports the package around it, and itself from there, by going out twice; going out once more
than there are packages around it finds nothing. -/
theorem relative_eq_absolute_twoLevels :
    let t := FileTree.twoLevels
    let s := SearchPath.ofDirs ⟨"/w"⟩ [⟨"/w"⟩] []
    let file : ModuleFile := ⟨⟨"/w/pkg/a/b/c.py"⟩⟩
    ∃ o, ((Builder.ofSources s t).build ⟨⟨"pkg.a.b.c"⟩, file, .source, false, true⟩ []).1.result = .ok (some o) ∧
      s.resolve t o.record ⟨"b", 2, ["c"], 1⟩ =
        [.found ⟨"pkg.a.b"⟩ ⟨⟨"/w/pkg/a/b/__init__.py"⟩⟩ .source 2 ⟨file.path, 1⟩,
          .found ⟨"pkg.a.b.c"⟩ file .source 2 ⟨file.path, 1⟩] ∧
      s.resolve t o.record ⟨"x", 4, [], 2⟩ = [.notFound ⟨"....x"⟩ 4 ⟨file.path, 2⟩] := by
  intro t s file
  have ht : t.IsWellFormed := FileTree.isWellFormed_packageOf (by decide)
  have hmem : ⟨"/w"⟩ ∈ (SearchPath.ofDirs t.workDir [⟨"/w"⟩] []).dirs := by decide +kernel
  have hd : Path.IsCanonical ⟨"/w"⟩ t.workDir := SearchPath.isCanonical_of_mem ht hmem (by decide)
  have hfound : t.locateIn ⟨"/w"⟩ (⟨"pkg.a.b.c"⟩ : ModuleName).text = some (file, .source) := by decide +kernel
  have htarget : (BuildRequest.target ⟨⟨"pkg.a.b.c"⟩, file, .source, false, true⟩ t) =
      ({ name := ⟨"pkg.a.b.c"⟩, file, kind := .source }, some file.path) := by decide +kernel
  obtain ⟨o, ho⟩ := Builder.exists_build_of_reads (p := s) (t := t) (r := ⟨⟨"pkg.a.b.c"⟩, file, .source, false, true⟩)
    (x := []) (by simp) fun path hpath => by
      rw [htarget] at hpath
      cases hpath
      exact ⟨"", [], by decide +kernel, by decide +kernel⟩
  have hrecord := (Builder.given_of_ofSources ho).1
  rw [htarget] at hrecord
  have hinner := (relative_eq_absolute ht hd (by decide) hfound ho (i := ⟨"b", 2, ["c"], 1⟩) (by decide) (by decide)
    (by decide)).2.2
  have houter := (relative_eq_absolute ht hd (by decide) hfound ho (i := ⟨"x", 4, [], 2⟩) (by decide) (by decide)
    (by decide)).2.2
  rw [hrecord] at hinner houter
  refine ⟨o, ho, ?_, ?_⟩
  · rw [hrecord]
    exact hinner.trans (by decide +kernel)
  · rw [hrecord]
    exact houter.trans (by decide +kernel)

end ImportClosure
