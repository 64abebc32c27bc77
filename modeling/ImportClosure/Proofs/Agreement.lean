import ImportClosure.Proofs.Members
import ImportClosure.Proofs.Walking

/-!
# Walks and imports name the same files

A walk turns names in the directory of a package into modules (`Engine.TurnsInto`). An import looks the module up by its
name, and the two agree on the file unless something else in the directory comes first in the lookup
(`FileTree.Outranked`), which is then what is found (`found_as_walked_iff`).
-/

namespace ImportClosure

open Step

/-- A walk turns a name in the directory of a package into a module: the name is a member of the directory, and the module
is what is got for the file at its path. -/
structure Engine.TurnsInto {σ : Type} (e : Engine σ) (dir : Path) (package : ModuleName) (name : String)
    (m : ModuleRecord) : Prop where
  lists : e.tree.Lists dir name
  member : isMember e.tree dir name = true
  got : ∃ q r s s', e.tree.query? (dir.child name) (some package) = some q ∧ r.AsksFor q ∧
    ends (e.fetch r) s = (.ok (some m), s')

/-- A directory has an extension module of this name, or bytecode. -/
def FileTree.HasBinary (t : FileTree) (dir : Path) (x : String) : Prop :=
  (∃ file, t.Lists dir file ∧ t.isExtensionOf x (dir.child file) = true) ∨
    t.isFile (dir.child (x ++ bytecodeSuffix)) = true

/-- Why a member of a directory is not what is found when its bare name `x` is looked up in the directory. -/
inductive FileTree.Outranked (t : FileTree) (dir : Path) (x name : String) : Prop where
  /-- A name with a dot in it is looked up one part after the other. -/
  | dotted (hn : name = x) (h : '.' ∈ x.toList)
  /-- A real package comes before a source. -/
  | package (hn : name = x ++ sourceSuffix) (h : t.isRealPackage (dir.child x) = true)
  /-- Binaries come before a directory without init entry. -/
  | binary (hn : name = x) (hi : t.hasInitEntry (dir.child x) = false) (h : t.HasBinary dir x)

namespace FileTree

variable {t : FileTree} {dir : Path} {x name : String} {f : ModuleFile} {kind : ModuleKind}

/-! ## What an import finds -/

/-- The module of a directory is at the place of the directory. -/
theorem DirectoryModule.place_eq {p : Path} (hw : t.workDir.isAbsolute = true) (hd : dir.isAbsolute = true)
    (h : t.DirectoryModule dir p) : (ModuleFile.ofPath t.workDir p).place = dir.components := by
  cases h with
  | entry => exact ModuleFile.place_child_initEntry hw hd
  | bare _ hn =>
    rw [ModuleFile.place_of_ne (by rwa [ModuleFile.fileName_ofPath hw hd]), ModuleFile.components_ofPath hw hd]

/-- A name without dots is looked up as it is. -/
theorem locateIn_of_not_mem (hdot : '.' ∉ x.toList) (hne : x ≠ "") : t.locateIn dir x = t.locateLeaf dir x := by
  rw [locateIn, Text.fields_of_not_mem hdot, locateComponents, if_neg (by simpa using hne)]

/-- What begins a step below a directory is at a place below that of the directory, or at the same. -/
theorem prefix_place_child {w : Path} (hw : w.isAbsolute = true) (hd : dir.isAbsolute = true) (hn : Path.BeginsStep name) :
    dir.components <+: (ModuleFile.ofPath w (dir.child name)).place := by
  obtain ⟨first, rest, _, hcomp⟩ := Path.components_child hd hn
  have hpath := (ModuleFile.ofPath w (dir.child name)).components_path
  rw [ModuleFile.components_ofPath hw (Path.isAbsolute_child hd name), hcomp] at hpath
  split at hpath
  · have hfront : dir.components <+: (ModuleFile.ofPath w (dir.child name)).place ++ [.name initEntry] := ⟨_, hpath⟩
    rcases List.prefix_concat_iff.1 hfront with heq | hfront
    · rw [heq] at hpath
      simpa using congrArg List.length hpath
    · exact hfront
  · exact ⟨_, hpath⟩

/-- A module in a directory has its place below the one of the directory. -/
theorem LeafModule.prefix_place {p : Path} (hw : t.workDir.isAbsolute = true) (hd : dir.isAbsolute = true)
    (hn : Path.BeginsStep name) (h : t.LeafModule dir name p) :
    dir.components <+: (ModuleFile.ofPath t.workDir p).place := by
  cases h with
  | package h =>
    obtain ⟨first, rest, _, hcomp⟩ := Path.components_child hd hn
    rw [h.place_eq hw (Path.isAbsolute_child hd name), hcomp]
    exact List.prefix_append _ _
  | suffixed suffix => exact prefix_place_child hw hd (hn.append suffix)
  | extension file hf => exact prefix_place_child hw hd (hn.of_startsWith hf)

/-- A module is at a place below the directory that its name is looked up in. -/
theorem prefix_of_locateComponents {names : List String} (hw : t.workDir.isAbsolute = true) (hd : dir.isAbsolute = true)
    (hn : ∀ name ∈ names, '.' ∉ name.toList ∧ Path.isAbsolute ⟨name⟩ = false)
    (h : t.locateComponents dir names = some (f, kind)) : dir.components <+: f.place := by
  induction names generalizing dir with
  | nil => cases h
  | cons name more ih =>
    obtain ⟨hdot, hroot⟩ := hn name List.mem_cons_self
    unfold locateComponents at h
    split at h
    · cases h
    next hcons =>
      obtain ⟨rfl, rfl⟩ := List.cons.inj hcons
      split at h
      · cases h
      next hne =>
        obtain ⟨p, rfl, hp⟩ := leafModule h
        exact hp.prefix_place hw hd (Path.beginsStep_of_not_mem (by simpa using hne) hdot hroot)
    next hcons =>
      obtain ⟨rfl, rfl⟩ := List.cons.inj hcons
      split at h
      · cases h
      next hne =>
        have hb := Path.beginsStep_of_not_mem (fun he => hne (by simp [he])) hdot hroot
        obtain ⟨first, rest, _, hcomp⟩ := Path.components_child hd hb
        have hrest := ih (Path.isAbsolute_child hd _) (fun n hmem => hn n (List.mem_cons_of_mem _ hmem)) h
        rw [hcomp] at hrest
        exact (List.prefix_append _ _).trans hrest

/-- A name with a dot in it is not found at a place of its own. -/
theorem place_ne_of_dotted (hw : t.workDir.isAbsolute = true) (hd : dir.isAbsolute = true) (hx : '/' ∉ x.toList)
    (hdot : '.' ∈ x.toList) (h : t.locateIn dir x = some (f, kind)) : f.place ≠ dir.components ++ [.name x] := by
  have hfields : ∀ name ∈ Text.fields '.' x, '.' ∉ name.toList ∧ '/' ∉ name.toList := fun name hmem =>
    ⟨Text.not_mem_of_mem_fields hmem, fun hslash => hx (Text.mem_of_mem_fields hmem hslash)⟩
  have hjoin := Text.unfields_fields '.' x
  unfold locateIn at h
  rcases hparts : Text.fields '.' x with _ | ⟨first, _ | ⟨second, more⟩⟩ <;> rw [hparts] at h hjoin hfields
  · cases h
  · obtain rfl : first = x := by simpa [Text.unfields, Text.join] using hjoin
    exact absurd hdot (hfields first List.mem_cons_self).1
  · obtain ⟨hfirst, hslash⟩ := hfields first List.mem_cons_self
    have hrest : ∀ name ∈ second :: more, '.' ∉ name.toList ∧ Path.isAbsolute ⟨name⟩ = false := by
      intro name hmem
      obtain ⟨hn, hs⟩ := hfields name (List.mem_cons_of_mem _ hmem)
      exact ⟨hn, Path.isAbsolute_of_not_mem hs⟩
    rw [locateComponents.eq_3 t dir first (second :: more) (List.cons_ne_nil second more)] at h
    split at h
    · cases h
    next hne =>
      have hstep := Path.isStep_of_not_mem (fun he => hne (by simp [he])) hfirst hslash
      have hfront := prefix_of_locateComponents hw (Path.isAbsolute_child hd first) hrest h
      rw [Path.components_child_eq hd hstep.1 hstep.2] at hfront
      intro hplace
      rw [hplace] at hfront
      have heq := hfront.eq_of_length (by simp)
      obtain rfl : first = x := by simpa using heq
      exact hfirst hdot

/-- An extension module that the directory lists is found, or another one. -/
theorem exists_extensionIn? (ht : t.IsWellFormed) (hd : dir.isAbsolute = true) {file : String} (hl : t.Lists dir file)
    (h : t.isExtensionOf x (dir.child file) = true) : ∃ found, t.extensionIn? dir x = some found := by
  obtain ⟨hn, hne⟩ := ht.of_lists hl
  obtain ⟨names, hnames, hmem⟩ := hl
  have hstarts : Text.startsWith file x = true := by
    have hat : t.moduleAt? (dir.child file) = some (x, .extension) := by
      simpa [isExtensionOf] using (Bool.and_eq_true_iff.1 h).2
    simp only [moduleAt?, Path.fileName_child hd hn hne, Option.bind_some] at hat
    split at hat
    · cases hat
    · split at hat
      · cases hat
      · obtain ⟨_, _, hstem⟩ := Option.map_eq_some_iff.1 hat
        obtain ⟨more, hmore⟩ := Text.exists_fields '.' file
        have hx : String.ofList (file.toList.takeWhile (· != '.')) = x := by
          have hfst : stem file = x := congrArg Prod.fst hstem
          rwa [stem, hmore] at hfst
        rw [← hx, Text.startsWith, String.toList_ofList, List.isPrefixOf_iff_prefix]
        exact List.takeWhile_prefix _
  unfold extensionIn?
  rw [hnames]
  refine Option.isSome_iff_exists.1 (List.findSome?_isSome_iff.2 ⟨file, List.mem_filter.2 ⟨hmem, hstarts⟩, ?_⟩)
  simp [h]

/-- A real package comes first. -/
theorem locateLeaf_of_isRealPackage (h : t.isRealPackage (dir.child x) = true) :
    t.locateLeaf dir x = some (.ofPath t.workDir ((dir.child x).child initEntry), .source) := by
  have hp := isPackage_of_isRealPackage h
  have hi := (Bool.and_eq_true_iff.1 h).2
  simp [locateLeaf, h, moduleAtDirectory?, hp, hi]

section Found

variable (ht : t.IsWellFormed) (hd : dir.isAbsolute = true) (hne : x ≠ "") (hdot : '.' ∉ x.toList)
  (hslash : '/' ∉ x.toList)

include ht hd hne hdot hslash

/-- A source is found unless there is a real package of its name. -/
theorem source_found_iff (hfile : t.isFile (dir.child (x ++ sourceSuffix)) = true)
    (hentry : x ++ sourceSuffix ≠ initEntry) :
    (∃ f kind, t.locateIn dir x = some (f, kind) ∧ f.place = dir.components ++ [.name (x ++ sourceSuffix)]) ↔
      t.isRealPackage (dir.child x) = false := by
  obtain ⟨hx, hparent⟩ := Path.isStep_of_not_mem hne hdot hslash
  obtain ⟨hsource, hsourceparent⟩ := Path.isStep_append (Or.inl rfl) hslash
  rw [locateIn_of_not_mem hdot hne]
  cases hr : t.isRealPackage (dir.child x) with
  | true =>
    rw [locateLeaf_of_isRealPackage hr]
    refine iff_of_false ?_ (by simp)
    rintro ⟨f, kind, hf, hplace⟩
    obtain ⟨rfl, rfl⟩ := Prod.mk.inj (Option.some.inj hf)
    rw [ModuleFile.place_child_initEntry ht.isAbsolute (Path.isAbsolute_child hd x),
      Path.components_child_eq hd hx hparent] at hplace
    have hlen := congrArg String.length (by simpa using hplace : x = x ++ sourceSuffix)
    simp [sourceSuffix] at hlen
  | false =>
    refine iff_of_true ⟨_, .source, ?_, ModuleFile.place_child ht.isAbsolute hd hsource hsourceparent hentry⟩ rfl
    simp only [locateLeaf, hr, fileWithSuffix?, hfile, if_true, Bool.false_eq_true, if_false, Option.some_or]

/-- A package that no source shadows is found unless it has no init entry and there is a binary of its name. -/
theorem package_found_iff (hp : t.isPackage (dir.child x) = true)
    (hs : t.isFile (dir.child (x ++ sourceSuffix)) = false) :
    (∃ f kind, t.locateIn dir x = some (f, kind) ∧ f.place = dir.components ++ [.name x]) ↔
      ¬ (t.hasInitEntry (dir.child x) = false ∧ t.HasBinary dir x) := by
  obtain ⟨hx, hparent⟩ := Path.isStep_of_not_mem hne hdot hslash
  have hdirectory := isDir_of_isPackage hp
  rw [locateIn_of_not_mem hdot hne]
  cases hi : t.hasInitEntry (dir.child x) with
  | true =>
    have hr : t.isRealPackage (dir.child x) = true := by simp [isRealPackage, hdirectory, hi]
    refine iff_of_true ⟨_, _, locateLeaf_of_isRealPackage hr, ?_⟩ (by simp)
    rw [ModuleFile.place_child_initEntry ht.isAbsolute (Path.isAbsolute_child hd x),
      Path.components_child_eq hd hx hparent]
  | false =>
    have hr : t.isRealPackage (dir.child x) = false := by simp [isRealPackage, hi]
    have hleaf : t.locateLeaf dir x = (t.extensionIn? dir x).or
        ((t.fileWithSuffix? dir x bytecodeSuffix .bytecode).or (some (.ofPath t.workDir (dir.child x), .source))) := by
      simp [locateLeaf, hr, fileWithSuffix?, hs, moduleAtDirectory?, hp, hi]
    rw [hleaf]
    cases hext : t.extensionIn? dir x with
    | some found =>
      obtain ⟨f, kind⟩ := found
      obtain ⟨file, hl, hof, rfl⟩ := exists_of_extensionIn? hext
      obtain ⟨hfile, hfileparent⟩ := ht.of_lists hl
      refine iff_of_false ?_ (not_not_intro ⟨rfl, Or.inl ⟨file, hl, hof⟩⟩)
      rintro ⟨f, kind', hf, hplace⟩
      obtain ⟨rfl, rfl⟩ := Prod.mk.inj (Option.some.inj hf)
      have hentry : file ≠ initEntry := fun heq => fileName_ne_of_isExtensionOf hof <| by
        rw [Path.fileName_child hd hfile hfileparent, heq]
      rw [ModuleFile.place_child ht.isAbsolute hd hfile hfileparent hentry] at hplace
      obtain rfl : file = x := by simpa using hplace
      rw [isDir_of_isFile (Bool.and_eq_true_iff.1 hof).1] at hdirectory
      cases hdirectory
    | none =>
      cases hb : t.isFile (dir.child (x ++ bytecodeSuffix)) with
      | true =>
        refine iff_of_false ?_ (not_not_intro ⟨rfl, Or.inr hb⟩)
        simp only [Option.none_or, fileWithSuffix?, hb, if_true, Option.some_or]
        rintro ⟨f, kind', hf, hplace⟩
        obtain ⟨rfl, rfl⟩ := Prod.mk.inj (Option.some.inj hf)
        obtain ⟨hbytecode, hbytecodeparent⟩ := Path.isStep_append (Or.inr rfl) hslash
        have hentry : x ++ bytecodeSuffix ≠ initEntry := by
          intro heq
          have hlast := congrArg (fun s => s.toList.getLast?) heq
          simp [bytecodeSuffix, initEntry] at hlast
        rw [ModuleFile.place_child ht.isAbsolute hd hbytecode hbytecodeparent hentry] at hplace
        have hlen := congrArg String.length (by simpa using hplace : x ++ bytecodeSuffix = x)
        simp [bytecodeSuffix] at hlen
      | false =>
        have hentry : x ≠ initEntry := by
          rintro rfl
          exact hdot (by decide)
        refine iff_of_true ⟨_, .source, ?_, ModuleFile.place_child ht.isAbsolute hd hx hparent hentry⟩ ?_
        · simp only [Option.none_or, fileWithSuffix?, hb, Bool.false_eq_true, if_false]
        · rintro ⟨_, ⟨file, hl, hof⟩ | hfile⟩
          · obtain ⟨found, hfound⟩ := exists_extensionIn? ht hd hl hof
            rw [hext] at hfound
            cases hfound
          · rw [hb] at hfile
            cases hfile

end Found

end FileTree

/-! ## What a walk takes -/

/-- Children of different names are different modules. -/
theorem ModuleName.child_injective {n : ModuleName} {x y : String} (h : n.child x = n.child y) : x = y := by
  have htext := congrArg (fun name => name.text.toList) h
  simp only [ModuleName.child, String.toList_append, List.append_cancel_left_eq] at htext
  exact String.toList_inj.1 htext

section Walks

variable {e : Engine (List Identity)} {p : SearchPath} {dir : Path} {package : ModuleName} {name x : String}
  {m : ModuleRecord}

/-- Over sources, what is got for a file that is no init entry is the module that is asked for. -/
theorem Recursed.identity_of_sources (he : e.builder = .ofSources p e.tree) (hw : e.tree.workDir.isAbsolute = true)
    {r : RecursionRequest} {signalled : Bool} {s s' : Session (List Identity)} (habs : r.file.path.isAbsolute = true)
    (hi : r.file.isInitEntry = false) (h : Recursed e r signalled s (.ok (some m)) s') : m.identity = r.identity := by
  cases h with
  | known hk => exact Cache.identity_of_find? hk
  | built events hnone hb =>
    rw [he] at hb
    rw [Cache.identity_add, (Builder.given_of_ofSources hb).1]
    exact BuildRequest.identity_target hw habs hi

/-- A module that a walk takes a name for goes by the bare name of what is there, and is at its place. -/
theorem Engine.TurnsInto.spec (he : e.builder = .ofSources p e.tree) (ht : e.tree.IsWellFormed)
    (hdir : dir.IsCanonical e.tree.workDir) (h : e.TurnsInto dir package name m) :
    ∃ bare kind, e.tree.moduleAt? (dir.child name) = some (bare, kind) ∧ m.name = package.child bare ∧
      m.file.place = dir.components ++ [.name name] := by
  obtain ⟨hn, hne⟩ := ht.of_lists h.lists
  have hinit : name ≠ initEntry := by
    rintro rfl
    simpa [isMember] using h.member
  obtain ⟨q, r, s, s', hq, hr, hfetch⟩ := h.got
  obtain ⟨⟨bare, kind⟩, hat, rfl⟩ := Option.map_eq_some_iff.1 hq
  have hfile := ModuleFile.ofPath_of_isCanonical (hdir.child hn)
  rw [hfile] at hat
  refine ⟨bare, kind, hat, ?_⟩
  obtain ⟨result, s₁, hc, hends⟩ := e.fetched r s
  obtain ⟨rfl, _⟩ := Prod.mk.inj (hends.symm.trans hfetch)
  have hrfile : r.file = ⟨dir.child name⟩ := hr.2.1.trans hfile
  have hid : m.identity = r.identity := by
    refine hc.identity_of_sources he ht.isAbsolute ?_ ?_
    · rw [hrfile]
      exact Path.isAbsolute_child hdir.1 name
    · simp [hrfile, ModuleFile.isInitEntry, Path.fileName_child hdir.1 hn hne, hinit]
  have hplace : (ModuleFile.mk (dir.child name)).place = dir.components ++ [.name name] := by
    rw [← hfile]
    exact ModuleFile.place_child ht.isAbsolute hdir.1 hn hne hinit
  refine ⟨(congrArg Identity.name hid).trans hr.1, ?_⟩
  have hmplace : m.file.place = r.file.place := congrArg Identity.place hid
  rw [hmplace, hrfile, hplace]

/-- The name of a source up to the first dot has no dot, and there is something in it. -/
theorem FileTree.of_moduleAt?_source {t : FileTree} {kind : ModuleKind} (hd : dir.isAbsolute = true)
    (hn : Path.IsStep (x ++ sourceSuffix)) (hne : x ++ sourceSuffix ≠ "..")
    (hfile : t.isFile (dir.child (x ++ sourceSuffix)) = true)
    (hat : t.moduleAt? (dir.child (x ++ sourceSuffix)) = some (x, kind)) : x ≠ "" ∧ '.' ∉ x.toList := by
  have hs : Text.endsWith (x ++ sourceSuffix) sourceSuffix = true := by
    simp [Text.endsWith, List.isSuffixOf_iff_suffix]
  rw [moduleAt?_of_endsWith hd hn hne (isDir_of_isFile hfile) hs] at hat
  split at hat
  · cases hat
  next hempty =>
    have hstem : stem (x ++ sourceSuffix) = x := congrArg Prod.fst (Option.some.inj hat)
    rw [hstem] at hempty
    refine ⟨hempty, ?_⟩
    obtain ⟨more, hmore⟩ := Text.exists_fields '.' (x ++ sourceSuffix)
    rw [stem, hmore, List.head?_cons, Option.getD_some] at hstem
    have hmem : x ∈ Text.fields '.' (x ++ sourceSuffix) := by
      rw [hmore, List.mem_cons]
      exact Or.inl hstem.symm
    exact Text.not_mem_of_mem_fields hmem

/-- A directory that a walk takes has no source of its name beside it. -/
theorem FileTree.isFile_of_isMember {t : FileTree} (hd : dir.isAbsolute = true) (hn : Path.IsStep x)
    (hdot : '.' ∉ x.toList) (h : Engine.isMember t dir x = true) :
    t.isFile (dir.child (x ++ sourceSuffix)) = false := by
  have hs : Text.endsWith x sourceSuffix = false := by
    rw [← Bool.not_eq_true, Text.endsWith, List.isSuffixOf_iff_suffix]
    exact fun hsuffix => hdot (hsuffix.subset (by decide))
  simp only [Engine.isMember, hs, Bool.or_false, Bool.and_eq_true, Bool.not_eq_true'] at h
  rw [← Bool.not_eq_true, Path.child_append_sourceSuffix hd hn]
  intro hfile
  rw [exists?_of_isFile hfile] at h
  exact absurd h.2.2 (by simp)

end Walks

/-! ## Fresh sessions -/

namespace Engine

/-- What is got for a member in a fresh session is what a walk turns it into. -/
theorem turnsInto_of_fresh {e : Engine (List Identity)} {dir : Path} {package : ModuleName} {name bare : String}
    {kind : ModuleKind} {m : ModuleRecord} (hl : e.tree.Lists dir name) (hm : isMember e.tree dir name = true)
    (hat : e.tree.moduleAt? (ModuleFile.ofPath e.tree.workDir (dir.child name)).path = some (bare, kind))
    (hf : (ends (e.fetch ⟨package.child bare, .ofPath e.tree.workDir (dir.child name), kind, none, none, ""⟩)
      (.fresh [])).1 = .ok (some m)) : e.TurnsInto dir package name m :=
  ⟨hl, hm, ⟨.ofPath e.tree.workDir (dir.child name), package.child bare, kind, true⟩, _, .fresh [], _,
    by rw [FileTree.query?, hat]; rfl, ⟨rfl, rfl, rfl⟩, Prod.ext hf rfl⟩

end Engine

/-! ## The agreement -/

/-- Over sources: what an import finds by looking up the bare name of a module in the directory of its package is the file
that a walk of the package takes for the module, as long as nothing comes before it. -/
theorem found_as_walked_iff {e : Engine (List Identity)} {p : SearchPath} (he : e.builder = .ofSources p e.tree)
    (ht : e.tree.IsWellFormed) {dir : Path} (hdir : dir.IsCanonical e.tree.workDir) {package : ModuleName}
    {name x : String} {m : ModuleRecord} (h : e.TurnsInto dir package name m) (hm : m.name = package.child x)
    (hx : name = x ∧ e.tree.isDir (dir.child x) = true ∨
      name = x ++ sourceSuffix ∧ e.tree.isFile (dir.child name) = true) :
    (∃ f kind, e.tree.locateIn dir x = some (f, kind) ∧ f.place = m.file.place) ↔ ¬ e.tree.Outranked dir x name := by
  obtain ⟨hn, hne⟩ := ht.of_lists h.lists
  obtain ⟨bare, kind, hat, hname, hplace⟩ := h.spec he ht hdir
  obtain rfl : x = bare := ModuleName.child_injective (hm.symm.trans hname)
  have hlonger : x ≠ x ++ sourceSuffix := fun heq => by simpa [sourceSuffix] using congrArg String.length heq
  rw [hplace]
  rcases hx with ⟨rfl, hdirectory⟩ | ⟨rfl, hfile⟩
  · have hp : e.tree.isPackage (dir.child name) = true := by
      rw [← Bool.not_eq_false]
      intro hp
      rw [FileTree.moduleAt?_of_isDir hdir.1 hn hne hdirectory hp] at hat
      cases hat
    by_cases hdot : '.' ∈ name.toList
    · refine iff_of_false ?_ (not_not_intro (.dotted rfl hdot))
      rintro ⟨f, kind', hf, heq⟩
      exact FileTree.place_ne_of_dotted ht.isAbsolute hdir.1 hn.1 hdot hf heq
    · have hempty : name ≠ "" := by
        rintro rfl
        exact absurd hn.2 (by decide)
      rw [FileTree.package_found_iff ht hdir.1 hempty hdot hn.1 hp (FileTree.isFile_of_isMember hdir.1 hn hdot h.member)]
      refine not_congr ⟨fun hbinary => .binary rfl hbinary.1 hbinary.2, fun hranked => ?_⟩
      cases hranked with
      | dotted _ hin => exact absurd hin hdot
      | package heq => exact absurd heq hlonger
      | binary _ hi hb => exact ⟨hi, hb⟩
  · obtain ⟨hempty, hdot⟩ := FileTree.of_moduleAt?_source hdir.1 hn hne hfile hat
    have hslash : '/' ∉ x.toList := fun hin => hn.1 (by simp [hin])
    have hentry : x ++ sourceSuffix ≠ initEntry := by
      intro heq
      have hmember := h.member
      simp [Engine.isMember, heq] at hmember
    rw [FileTree.source_found_iff ht hdir.1 hempty hdot hslash hfile hentry, ← Bool.not_eq_true]
    refine not_congr ⟨fun hr => .package rfl hr, fun hranked => ?_⟩
    cases hranked with
    | dotted heq => exact absurd heq.symm hlonger
    | package _ hr => exact hr
    | binary heq => exact absurd heq.symm hlonger

/-- A real package is found before the extension module beside it. -/
theorem found_as_walked_iff_realPackage :
    let e := Engine.overSources (.packageOf [["sub", initEntry], ["sub.so"]])
    let m : ModuleRecord := ⟨⟨"pkg.sub"⟩, ⟨⟨"/w/pkg/sub/__init__.py"⟩⟩, .source, true, false, none⟩
    e.TurnsInto ⟨"/w/pkg"⟩ ⟨"pkg"⟩ "sub" m ∧ e.tree.HasBinary ⟨"/w/pkg"⟩ "sub" ∧
      ∃ f kind, e.tree.locateIn ⟨"/w/pkg"⟩ "sub" = some (f, kind) ∧ f.place = m.file.place := by
  intro e m
  have h : (Engine.overSources (.packageOf [["sub", initEntry], ["sub.so"]])).TurnsInto ⟨"/w/pkg"⟩ ⟨"pkg"⟩ "sub"
      ⟨⟨"pkg.sub"⟩, ⟨⟨"/w/pkg/sub/__init__.py"⟩⟩, .source, true, false, none⟩ :=
    Engine.turnsInto_of_fresh (FileTree.lists_of_mem ["w", "pkg"] (by decide +kernel) (by decide +kernel)
      (by decide +kernel)) (by decide +kernel) (show _ = some ("sub", .source) by decide +kernel)
      (by with_unfolding_all rfl)
  have hso : e.tree.Lists ⟨"/w/pkg"⟩ "sub.so" :=
    FileTree.lists_of_mem ["w", "pkg"] (by decide +kernel) (by decide +kernel) (by decide +kernel)
  refine ⟨h, Or.inl ⟨"sub.so", hso, by decide +kernel⟩, ?_⟩
  refine (found_as_walked_iff rfl (FileTree.isWellFormed_packageOf (by decide)) ⟨by decide, by decide +kernel⟩ h
    rfl (.inl ⟨rfl, by decide +kernel⟩)).2 fun hranked => ?_
  cases hranked with
  | dotted _ hdot => exact absurd hdot (by decide)
  | package heq => exact absurd heq (by decide)
  | binary _ hi => exact absurd hi (by decide +kernel)

namespace Engine

/-- A walk turns a name in the directory of a package into a module, and an import of its bare name finds no module at the
file of it. -/
def Disagrees (e : Engine (List Identity)) (dir : Path) (package : ModuleName) (name x : String) : Prop :=
  ∃ m, e.TurnsInto dir package name m ∧ m.name = package.child x ∧
    (name = x ∧ e.tree.isDir (dir.child x) = true ∨ name = x ++ sourceSuffix ∧ e.tree.isFile (dir.child name) = true) ∧
    ¬ ∃ f kind, e.tree.locateIn dir x = some (f, kind) ∧ f.place = m.file.place

/-- A source beside a real package is walked, and the package is imported; a directory without init entry beside bytecode is
walked, and the bytecode is imported; a package with a dot in its name is walked, and cannot be imported. -/
theorem disagrees_overSources :
    (overSources (.packageOf [["x.py"], ["x", initEntry]])).Disagrees ⟨"/w/pkg"⟩ ⟨"pkg"⟩ "x.py" "x" ∧
      (overSources (.packageOf [["x", "a.py"], ["x.pyc"]])).Disagrees ⟨"/w/pkg"⟩ ⟨"pkg"⟩ "x" "x" ∧
      (overSources (.packageOf [["x.y", initEntry]])).Disagrees ⟨"/w/pkg"⟩ ⟨"pkg"⟩ "x.y" "x.y" := by
  have hwell : (FileTree.packageOf [["x", "a.py"], ["x.pyc"]]).IsWellFormed :=
    FileTree.isWellFormed_packageOf (by decide)
  refine ⟨⟨⟨⟨"pkg.x"⟩, ⟨⟨"/w/pkg/x.py"⟩⟩, .source, false, false, none⟩, ?_, rfl, .inr ⟨rfl, by decide +kernel⟩, ?_⟩,
    ⟨⟨⟨"pkg.x"⟩, ⟨⟨"/w/pkg/x"⟩⟩, .source, true, false, none⟩, ?_, rfl, .inl ⟨rfl, by decide +kernel⟩, ?_⟩,
    ⟨⟨⟨"pkg.x.y"⟩, ⟨⟨"/w/pkg/x.y/__init__.py"⟩⟩, .source, true, false, none⟩, ?_, rfl, .inl ⟨rfl, by decide +kernel⟩, ?_⟩⟩
  · exact turnsInto_of_fresh (FileTree.lists_of_mem ["w", "pkg"] (by decide +kernel) (by decide +kernel)
      (by decide +kernel)) (by decide +kernel) (show _ = some ("x", .source) by decide +kernel)
      (by with_unfolding_all rfl)
  · rintro ⟨f, kind, hf, hplace⟩
    have hx : (FileTree.packageOf [["x.py"], ["x", initEntry]]).locateIn ⟨"/w/pkg"⟩ "x" =
        some (⟨⟨"/w/pkg/x/__init__.py"⟩⟩, .source) := by decide +kernel
    obtain ⟨rfl, rfl⟩ := Prod.mk.inj (Option.some.inj (hx.symm.trans hf))
    exact absurd hplace (by decide +kernel)
  · exact turnsInto_of_fresh (FileTree.lists_of_mem ["w", "pkg"] (by decide +kernel) (by decide +kernel)
      (by decide +kernel)) (by decide +kernel) (show _ = some ("x", .source) by decide +kernel)
      (by with_unfolding_all rfl)
  · -- the lookup sorts the names in the directory, so it is not computed
    have habs : Path.isAbsolute ⟨"/w/pkg"⟩ = true := by decide
    have hfound := FileTree.package_found_iff hwell habs (show "x" ≠ "" by decide) (by decide) (by decide)
      (by decide +kernel) (by decide +kernel)
    rintro ⟨f, kind, hf, hplace⟩
    exact hfound.1 ⟨f, kind, hf, hplace.trans (by decide +kernel)⟩ ⟨by decide +kernel, Or.inr (by decide +kernel)⟩
  · exact turnsInto_of_fresh (FileTree.lists_of_mem ["w", "pkg"] (by decide +kernel) (by decide +kernel)
      (by decide +kernel)) (by decide +kernel) (show _ = some ("x.y", .source) by decide +kernel)
      (by with_unfolding_all rfl)
  · rintro ⟨f, kind, hf, _⟩
    have hx : (FileTree.packageOf [["x.y", initEntry]]).locateIn ⟨"/w/pkg"⟩ "x.y" = none := by decide +kernel
    cases hx.symm.trans hf

end Engine

end ImportClosure
