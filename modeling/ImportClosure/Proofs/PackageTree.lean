import ImportClosure.Proofs.Members

/-!
# The tree of a package

What a package directory stands for, told by the tree alone: the package itself, then for each name in the directory, in
order, the tree of a subpackage or a single module (`FileTree.PackageTree`). There is exactly one such list of modules
(`FileTree.IsWellFormed.exists_packageTree`, `FileTree.PackageTree.unique`), and what a name brings into it is at a place
below that name (`FileTree.MembersOf.exists_prefix`).
-/

namespace ImportClosure

/-- The module that a source is. -/
def ModuleRecord.ofSource (file : Path) (n : ModuleName) : ModuleRecord :=
  { name := n, file := ⟨file⟩, kind := .source }

/-! ## Trees of sources -/

/-- Whether this is a source without syntax errors. -/
def Content.parses : Content → Bool
  | .directory => false
  | .text s => (Python.readImports s).isOk
  | .unreadable _ => false

namespace FileTree

/-- A tree in which no directory has a dot in its name, and whatever is named like a source is one. -/
structure IsSourceTree (t : FileTree) : Prop extends t.IsWellFormed where
  undotted : ∀ entry ∈ t.entries, entry.2 = .directory → ∀ name ∈ entry.1.getLast?, '.' ∉ name.toList
  parses : ∀ entry ∈ t.entries, ∀ name ∈ entry.1.getLast?, Text.endsWith name sourceSuffix = true →
    entry.2.parses = true

variable {t : FileTree} {p dir : Path} {n : ModuleName} {x : String} {c : Content}

/-- What stands at the end of a path is an entry of its last name. -/
theorem exists_mem_entries (hp : p.isAbsolute = true) (hx : p.fileName = some x) (h : t.read? p = some c) :
    ∃ place, (place ++ [x], c) ∈ t.entries := by
  obtain ⟨hn, hne⟩ := Path.isStep_of_fileName hp hx
  obtain ⟨front, hfront⟩ := Path.exists_front hp hx
  have hsteps : p.steps = front.map Path.Component.text ++ [x] := by
    rw [Path.steps, hfront, List.tail_cons, List.map_append]
    rfl
  unfold read? at h
  split at h
  next place hplace =>
    have hfollow := foldlM_steps_of_locate hp hplace
    rw [hsteps] at hfollow
    obtain ⟨above, _, hlast⟩ := foldlM_follow_concat.1 hfollow
    obtain rfl := (follow_eq_ok hlast).2.2 hn.2 hne
    refine ⟨above, ?_⟩
    rw [content?, if_neg (by simp)] at h
    obtain ⟨l₁, l₂, hl, _⟩ := List.lookup_eq_some_iff.1 h
    simp [hl]
  next => cases h

/-- In a tree of sources the names of directories have no dot in them. -/
theorem IsSourceTree.not_mem_of_isDir (ht : t.IsSourceTree) (hp : p.isAbsolute = true) (hx : p.fileName = some x)
    (h : t.isDir p = true) : '.' ∉ x.toList := by
  obtain ⟨place, hmem⟩ := exists_mem_entries hp hx (by simpa [isDir] using h)
  exact ht.undotted _ hmem rfl x (by simp)

/-- In a tree of sources what is named like a source is no directory. -/
theorem IsSourceTree.isDir_eq (ht : t.IsSourceTree) (hp : p.isAbsolute = true) (hx : p.fileName = some x)
    (hs : Text.endsWith x sourceSuffix = true) : t.isDir p = false := by
  rw [← Bool.not_eq_true]
  intro hdir
  rw [Text.endsWith, List.isSuffixOf_iff_suffix] at hs
  exact ht.not_mem_of_isDir hp hx hdir (hs.subset (by decide))

/-- In a tree of sources a file that is named like a source has a text without syntax errors. -/
theorem IsSourceTree.exists_text (ht : t.IsSourceTree) (hp : p.isAbsolute = true) (hx : p.fileName = some x)
    (hs : Text.endsWith x sourceSuffix = true) (h : t.isFile p = true) : t.Parses p := by
  cases hl : t.locate p with
  | error err => simp [isFile, read?, hl] at h
  | ok place =>
    obtain ⟨c, hc⟩ : ∃ c, t.read? p = some c := by
      cases hr : t.read? p with
      | none => simp [isFile, hr] at h
      | some c => exact ⟨c, rfl⟩
    obtain ⟨above, hmem⟩ := exists_mem_entries hp hx hc
    have hparses := ht.parses _ hmem x (by simp) hs
    have hcontent : t.content? place = some c := by simpa [read?, hl] using hc
    cases c with
    | directory | unreadable => cases hparses
    | text s =>
      simp only [Content.parses] at hparses
      cases hr : Python.readImports s with
      | error line =>
        rw [hr] at hparses
        cases hparses
      | ok statements => exact ⟨s, statements, by simp [readText, hl, hcontent, bind, Except.bind], hr⟩

/-! ## Directories with a slash behind them -/

/-- A directory that can be found with a slash behind it is found without. -/
theorem locate_of_append_slash {place : Place} (hp : p.isAbsolute = true) (h : t.locate ⟨p.text ++ "/"⟩ = .ok place) :
    t.locate p = .ok place := by
  obtain ⟨fs, _, hfs⟩ := Path.exists_fields_of_isAbsolute hp
  have hfields : Path.fields ⟨p.text ++ "/"⟩ = "" :: (fs ++ [""]) := by
    have happend := Text.fields_append (show "/".toList = ['/'] from rfl) p.text ""
    rw [String.append_empty] at happend
    rw [Path.fields, happend, show Text.fields '/' p.text = "" :: fs from hfs]
    rfl
  obtain ⟨hnul, hsize, hfold⟩ := (locate_eq_ok (Path.isAbsolute_append hp "/")).1 h
  rw [hfields, List.tail_cons] at hfold
  obtain ⟨above, habove, hlast⟩ := foldlM_follow_concat.1 hfold
  obtain rfl : place = above := (follow_eq_ok hlast).2.1 (by decide)
  rw [String.toList_append] at hnul
  rw [String.utf8ByteSize_append] at hsize
  refine (locate_eq_ok hp).2 ⟨fun hmem => hnul (List.mem_append_left _ hmem), by omega, ?_⟩
  rw [hfs, List.tail_cons, habove]

/-- A canonical directory lists the same names without the slash behind it. -/
theorem list_bare {names : List String} {w : Path} (hp : p.IsCanonical w) (h : t.list p = .ok names) :
    t.list p.bare = .ok names := by
  rcases hp.eq_bare_or with heq | ⟨_, heq⟩
  · rwa [← heq]
  · unfold list at h ⊢
    cases hl : t.locate p with
    | error err => simp [hl, bind, Except.bind] at h
    | ok place =>
      rw [hl] at h
      rw [heq] at hl
      rw [locate_of_append_slash (Path.bare_spec hp.1).1 hl]
      exact h

/-! ## What a package directory stands for -/

/-- A name in a package directory is a subpackage: a package that no source shadows. -/
structure IsSubpackage (t : FileTree) (dir : Path) (x : String) : Prop where
  ne_initEntry : x ≠ initEntry
  ne_cache : x ≠ bytecodeCacheDir
  isPackage : t.isPackage (dir.child x) = true
  unshadowed : t.exists? (dir.child (x ++ sourceSuffix)) = false

/-- A name in a package directory is a submodule: a source with something in front of the first dot of its name. -/
structure IsSubmodule (t : FileTree) (dir : Path) (x : String) : Prop where
  ne_initEntry : x ≠ initEntry
  isFile : t.isFile (dir.child x) = true
  endsWith : Text.endsWith x sourceSuffix = true
  stem_ne : stem x ≠ ""

/-- The module that a package directory is: its init entry, or the bare directory. -/
def packageRecord (t : FileTree) (dir : Path) (n : ModuleName) : ModuleRecord :=
  { name := n, file := ⟨if t.hasInitEntry dir then dir.child initEntry else dir⟩, kind := .source, isPackage := true }

/-- The modules that some names in the directory of a package stand for, each with all that is below it. -/
inductive MembersOf (t : FileTree) : Path → ModuleName → List String → List ModuleRecord → Prop where
  | nil {dir : Path} {n : ModuleName} : MembersOf t dir n [] []
  /-- A subpackage is followed by its own members, under its name. -/
  | package {dir : Path} {n : ModuleName} {x : String} {inside names : List String} {below more : List ModuleRecord}
      (hx : t.IsSubpackage dir x) (hl : t.list (dir.child x) = .ok inside)
      (hb : MembersOf t (dir.child x) (n.child x) inside below) (hm : MembersOf t dir n names more) :
      MembersOf t dir n (x :: names) (t.packageRecord (dir.child x) (n.child x) :: below ++ more)
  /-- A submodule goes by its name up to the first dot. -/
  | module {dir : Path} {n : ModuleName} {x : String} {names : List String} {more : List ModuleRecord}
      (hx : t.IsSubmodule dir x) (hm : MembersOf t dir n names more) :
      MembersOf t dir n (x :: names) (.ofSource (dir.child x) (n.child (stem x)) :: more)
  /-- Nothing else counts. -/
  | other {dir : Path} {n : ModuleName} {x : String} {names : List String} {more : List ModuleRecord}
      (hp : ¬ t.IsSubpackage dir x) (hs : ¬ t.IsSubmodule dir x) (hm : MembersOf t dir n names more) :
      MembersOf t dir n (x :: names) more

/-- The modules that a package directory stands for: the package, and what the names in it stand for, in their order. -/
def PackageTree (t : FileTree) (dir : Path) (n : ModuleName) (ms : List ModuleRecord) : Prop :=
  ∃ names members, t.list dir = .ok names ∧ t.MembersOf dir n names members ∧ ms = t.packageRecord dir n :: members

variable {names inside : List String} {ms ms' : List ModuleRecord}

/-- A submodule is no directory. -/
theorem IsSubmodule.not_isSubpackage (h : t.IsSubmodule dir x) : ¬ t.IsSubpackage dir x := fun hp => by
  have hdir := isDir_of_isPackage hp.isPackage
  rw [isDir_of_isFile h.isFile] at hdir
  cases hdir

/-- Names stand for one list of modules only. -/
theorem MembersOf.unique (h : t.MembersOf dir n names ms) (h' : t.MembersOf dir n names ms') : ms = ms' := by
  induction h generalizing ms' with
  | nil =>
    cases h'
    rfl
  | package hx hl hb hm ihb ihm =>
    cases h' with
    | package _ hl' hb' hm' =>
      cases hl.symm.trans hl'
      rw [ihb hb', ihm hm']
    | module hx' => exact absurd hx hx'.not_isSubpackage
    | other hp => exact absurd hx hp
  | module hx hm ih =>
    cases h' with
    | package hx' => exact absurd hx' hx.not_isSubpackage
    | module _ hm' => rw [ih hm']
    | other _ hs => exact absurd hx hs
  | other hp hs hm ih =>
    cases h' with
    | package hx' => exact absurd hx' hp
    | module hx' => exact absurd hx' hs
    | other _ _ hm' => exact ih hm'

/-- A package directory stands for one list of modules only. -/
theorem PackageTree.unique (h : t.PackageTree dir n ms) (h' : t.PackageTree dir n ms') : ms = ms' := by
  obtain ⟨names, members, hl, hm, rfl⟩ := h
  obtain ⟨names', members', hl', hm', rfl⟩ := h'
  cases hl.symm.trans hl'
  rw [hm.unique hm']

/-- A name in a directory has less below it than the directory. -/
theorem IsWellFormed.below_child_lt (ht : t.IsWellFormed) (hd : dir.isAbsolute = true) (hl : t.list dir = .ok names)
    (hx : x ∈ names) : t.below (dir.child x).components < t.below dir.components := by
  have hsum := ht.sum_below_le hd hl fun _ => true
  rw [List.filter_true] at hsum
  have hle := List.le_sum_of_mem (List.mem_map_of_mem (f := fun name => 1 + t.below (dir.child name).components) hx)
  omega

/-- The names in a directory stand for some modules. -/
theorem IsWellFormed.exists_membersOf (ht : t.IsWellFormed) (hd : dir.isAbsolute = true) (hl : t.list dir = .ok names)
    (n : ModuleName) : ∃ ms, t.MembersOf dir n names ms := by
  -- by induction on what is below the directory, and over the names in it
  induction hb : t.below dir.components using Nat.strong_induction_on generalizing dir n names with
  | _ bound ih =>
    have hsub : ∀ x ∈ names, t.below (dir.child x).components < bound := fun x hx => hb ▸ ht.below_child_lt hd hl hx
    clear hl
    induction names with
    | nil => exact ⟨[], .nil⟩
    | cons x names ihn =>
      obtain ⟨more, hmore⟩ := ihn fun y hy => hsub y (List.mem_cons_of_mem x hy)
      by_cases hx : t.IsSubpackage dir x
      · obtain ⟨inside, hinside⟩ := exists_list_of_isDir (isDir_of_isPackage hx.isPackage)
        obtain ⟨below, hbelow⟩ :=
          ih _ (hsub x List.mem_cons_self) (Path.isAbsolute_child hd x) hinside (n.child x) rfl
        exact ⟨_, .package hx hinside hbelow hmore⟩
      · by_cases hm : t.IsSubmodule dir x
        · exact ⟨_, .module hm hmore⟩
        · exact ⟨_, .other hx hm hmore⟩

/-- A directory stands for some modules. -/
theorem IsWellFormed.exists_packageTree (ht : t.IsWellFormed) (hd : dir.isAbsolute = true) (h : t.isDir dir = true)
    (n : ModuleName) : ∃ ms, t.PackageTree dir n ms := by
  obtain ⟨names, hl⟩ := exists_list_of_isDir h
  obtain ⟨members, hm⟩ := ht.exists_membersOf hd hl n
  exact ⟨_, names, members, hl, hm, rfl⟩

/-! ## Places -/

/-- The file of a package stands for its directory, without a slash behind it where there is an init entry. -/
theorem identity_packageRecord (hd : dir.IsCanonical t.workDir) (hx : dir.fileName = some x) (hinit : x ≠ initEntry) :
    (t.packageRecord dir n).file.identity = if t.hasInitEntry dir then dir.bare else dir := by
  unfold packageRecord ModuleFile.identity ModuleFile.isInitEntry
  split
  · have hstep := Path.isStep_initEntry
    rw [Path.fileName_child hd.1 hstep (by decide), beq_self_eq_true, if_pos rfl, ← hd.child_bare hstep]
    obtain ⟨hbare, _⟩ := Path.bare_spec hd.1
    obtain ⟨front, hfront, heq⟩ := Path.exists_bare_eq hd.1 hx
    obtain ⟨hn, _⟩ := Path.isStep_of_fileName hd.1 hx
    rw [Path.parent?_child hbare ?_ hstep]
    · rfl
    intro f hf
    rw [heq, Path.fields_child hfront hn.1, List.getLast?_concat] at hf
    cases hf
    simpa using hn.2
  · rw [if_neg]
    simpa [hx] using hinit

/-- A package is at the place of its directory. -/
theorem place_packageRecord (ht : t.IsWellFormed) (hd : dir.IsCanonical t.workDir)
    (hinit : dir.fileName ≠ some initEntry) : (t.packageRecord dir n).file.place = dir.components := by
  unfold packageRecord
  split
  · have hplace := ModuleFile.place_child_initEntry ht.isAbsolute hd.1
    rwa [ModuleFile.ofPath_of_isCanonical (hd.child Path.isStep_initEntry)] at hplace
  · exact ModuleFile.place_of_ne hinit

/-- A subpackage is at the place of its name. -/
theorem IsSubpackage.place_eq (h : t.IsSubpackage dir x) (ht : t.IsWellFormed) (hd : dir.IsCanonical t.workDir)
    (hn : Path.IsStep x ∧ x ≠ "..") :
    (t.packageRecord (dir.child x) n).file.place = dir.components ++ [.name x] := by
  rw [place_packageRecord ht (hd.child hn.1), Path.components_child_eq hd.1 hn.1 hn.2]
  rw [Path.fileName_child hd.1 hn.1 hn.2]
  exact fun heq => h.ne_initEntry (Option.some.inj heq)

/-- A submodule is at the place of its name. -/
theorem IsSubmodule.place_eq (h : t.IsSubmodule dir x) (ht : t.IsWellFormed) (hd : dir.IsCanonical t.workDir)
    (hn : Path.IsStep x ∧ x ≠ "..") :
    (ModuleRecord.ofSource (dir.child x) n).file.place = dir.components ++ [.name x] := by
  have hplace := ModuleFile.place_child ht.isAbsolute hd.1 hn.1 hn.2 h.ne_initEntry
  rwa [ModuleFile.ofPath_of_isCanonical (hd.child hn.1)] at hplace

/-- What names in a directory stand for is at places below these names. -/
theorem MembersOf.exists_prefix (ht : t.IsWellFormed) (h : t.MembersOf dir n names ms) (hd : dir.IsCanonical t.workDir)
    (hn : ∀ x ∈ names, Path.IsStep x ∧ x ≠ "..") :
    ∀ m ∈ ms, ∃ x ∈ names, dir.components ++ [.name x] <+: m.file.place := by
  induction h with
  | nil => simp
  | @package dir n x inside names below more hx hl hb hm ihb ihm =>
    obtain ⟨hstep, hrest⟩ := List.forall_mem_cons.1 hn
    intro m hmem
    rcases List.mem_append.1 hmem with hmem | hmem
    · refine ⟨x, List.mem_cons_self, ?_⟩
      rcases List.mem_cons.1 hmem with rfl | hmem
      · exact (hx.place_eq ht hd hstep).symm ▸ List.prefix_rfl
      · obtain ⟨y, _, hy⟩ := ihb (hd.child hstep.1) (ht.names_of_list hl).2 m hmem
        rw [Path.components_child_eq hd.1 hstep.1 hstep.2] at hy
        exact (List.prefix_append _ _).trans hy
    · obtain ⟨y, hy, hprefix⟩ := ihm hd hrest m hmem
      exact ⟨y, List.mem_cons_of_mem x hy, hprefix⟩
  | @module dir n x names more hx hm ih =>
    obtain ⟨hstep, hrest⟩ := List.forall_mem_cons.1 hn
    intro m hmem
    rcases List.mem_cons.1 hmem with rfl | hmem
    · refine ⟨x, List.mem_cons_self, ?_⟩
      exact (hx.place_eq ht hd hstep).symm ▸ List.prefix_rfl
    · obtain ⟨y, hy, hprefix⟩ := ih hd hrest m hmem
      exact ⟨y, List.mem_cons_of_mem x hy, hprefix⟩
  | @other dir n x names more _ _ hm ih =>
    intro m hmem
    obtain ⟨y, hy, hprefix⟩ := ih hd (List.forall_mem_cons.1 hn).2 m hmem
    exact ⟨y, List.mem_cons_of_mem x hy, hprefix⟩

/-- A subpackage and all that it stands for is at places below its name. -/
theorem IsSubpackage.prefix_of_membersOf {below : List ModuleRecord} (h : t.IsSubpackage dir x) (ht : t.IsWellFormed)
    (hd : dir.IsCanonical t.workDir) (hn : Path.IsStep x ∧ x ≠ "..") (hl : t.list (dir.child x) = .ok inside)
    (hb : t.MembersOf (dir.child x) (n.child x) inside below) :
    ∀ m ∈ t.packageRecord (dir.child x) (n.child x) :: below, dir.components ++ [.name x] <+: m.file.place := by
  intro m hmem
  have hname := MembersOf.package h hl hb .nil
  rw [List.append_nil] at hname
  obtain ⟨y, hy, hprefix⟩ := hname.exists_prefix ht hd (by simpa using hn) m hmem
  obtain rfl := List.mem_singleton.1 hy
  exact hprefix

end FileTree

/-! ## Records that are built -/

namespace BuildRequest

open FileTree

variable {t : FileTree} {q : Path} {n : ModuleName}

/-- What is built for the directory of a package is the package, from its init entry if there is one. -/
theorem target_of_isDir (hq : q.IsCanonical t.workDir) (h : t.isDir q = true) :
    (⟨n, ⟨q⟩, .source, false, true⟩ : BuildRequest).target t =
      (t.packageRecord q n, if t.hasInitEntry q then some (q.child initEntry) else none) := by
  unfold target packageRecord
  simp only [h, if_true]
  split
  · rw [ModuleFile.ofPath_of_isCanonical (hq.child Path.isStep_initEntry)]
  · rfl

/-- What is built for any other file is the module, from the file. -/
theorem target_of_isDir_eq_false (h : t.isDir q = false) (hinit : q.fileName ≠ some initEntry) :
    (⟨n, ⟨q⟩, .source, false, true⟩ : BuildRequest).target t = (.ofSource q n, some q) := by
  have hi : ModuleFile.isInitEntry ⟨q⟩ = false := by simpa [ModuleFile.isInitEntry] using hinit
  simp [target, h, hi, ModuleRecord.ofSource]

end BuildRequest

end ImportClosure
