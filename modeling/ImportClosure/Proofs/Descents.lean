import ImportClosure.Proofs.Canonical
import ImportClosure.Proofs.Matched
import ImportClosure.Proofs.Members
import ImportClosure.Proofs.Universe

/-!
# Paths that go down

A path without parent steps goes down from where it starts (`Path.Descends`). Written from the root it has the names of the
place that it leads to, and nothing else (`FileTree.components_of_locate`), so two such paths to one place are one module
file. What is found below a directory that is written in this way is written so as well, through imports
(`SearchPath.descends_of_mem_resolve`) and through filename patterns (`FileTree.descends_of_mem_matching`).
-/

namespace ImportClosure

namespace Path

variable {p base w : Path} {name : String} {fs : List String}

/-- A path without parent steps. -/
def Descends (p : Path) : Prop :=
  ".." ∉ p.fields

instance : DecidablePred Descends :=
  fun p => inferInstanceAs (Decidable (".." ∉ p.fields))

/-! ## Steps -/

/-- A field is a parent step only if it is written as two dots. -/
theorem component?_eq_parent {f : String} : component? f = some .parent ↔ f = ".." := by
  constructor
  · intro h
    rw [← text_of_component? h]
    rfl
  · rintro rfl
    decide

/-- The steps among fields that are no parent steps are names. -/
theorem filterMap_component? (h : ".." ∉ fs) :
    fs.filterMap component? = (fs.filter fun f => !isIdle f).map .name := by
  induction fs with
  | nil => rfl
  | cons f fs ih =>
    rw [List.mem_cons, not_or] at h
    cases hidle : isIdle f with
    | true =>
      rw [List.filterMap_cons_none (component?_eq_none.2 hidle), List.filter_cons_of_neg (by simp [hidle]), ih h.2]
    | false =>
      have hname : component? f = some (.name f) := by simp [component?, hidle, Ne.symm h.1]
      rw [List.filterMap_cons_some hname, List.filter_cons_of_pos (by simp [hidle]), ih h.2, List.map_cons]

/-- A path goes down if no component of it is a parent step. -/
theorem descends_iff : p.Descends ↔ Component.parent ∉ p.components := by
  have hmem : Component.parent ∈ p.components ↔ ".." ∈ p.fields := by
    calc Component.parent ∈ p.components
        ↔ Component.parent ∈ p.components.filter (fun step => step != .root && step != .here) := by
          simp [List.mem_filter]
      _ ↔ Component.parent ∈ p.fields.filterMap component? := by rw [filter_components]
      _ ↔ ".." ∈ p.fields := by simp [List.mem_filterMap, component?_eq_parent]
  exact not_congr hmem.symm

/-- The components of a path from the root: those of the directory that it is relative to, and its own steps. -/
theorem components_absolute (hw : w.isAbsolute = true) (hp : p.text ≠ "") : (p.absolute w).components =
    (if p.isAbsolute then [.root] else w.components) ++ p.fields.filterMap component? := by
  cases ha : p.isAbsolute with
  | true =>
    rw [(absolute_spec hw hp).2 ha]
    obtain ⟨s, rfl⟩ := isAbsolute_iff.1 ha
    rw [components_root, fields_root, List.filterMap_cons_none (by decide)]
    rfl
  | false =>
    have hslash : ∀ f ∈ p.fields, '/' ∉ f.toList := fun f hf => Text.not_mem_of_mem_fields hf
    obtain ⟨habs, hcomp⟩ := components_foldl_join hslash rfl hw
    simp only [absolute, beq_iff_eq, hp, if_false, ha, Bool.false_eq_true, filter_components]
    split
    · exact (components_append_slash habs).trans hcomp
    · exact hcomp

/-! ## Paths put together -/

/-- What stands between the slashes of a path that is taken from a directory stands in one of the two. -/
theorem mem_fields_join {f : String} (h : f ∈ (base.join p).fields) : f ∈ base.fields ∨ f ∈ p.fields := by
  unfold join at h
  split at h
  · exact Or.inr h
  · split at h
    next hend =>
      rw [Bool.or_eq_true, beq_iff_eq] at hend
      rcases hend with hempty | hend
      · rw [hempty, String.empty_append] at h
        exact Or.inr h
      · rw [Text.endsWith, List.isSuffixOf_iff_suffix] at hend
        obtain ⟨front, hfront⟩ := hend
        have htext : base.text = String.ofList front ++ "/" := by
          apply String.toList_inj.1
          rw [String.toList_append, String.toList_ofList]
          exact hfront.symm
        have hbase := Text.fields_append (show "/".toList = ['/'] from rfl) (String.ofList front) ""
        rw [String.append_empty] at hbase
        rw [fields, htext, Text.fields_append rfl] at h
        rw [fields, htext, hbase]
        exact (List.mem_append.1 h).imp (List.mem_append_left _) id
    next =>
      rw [fields, Text.fields_append rfl] at h
      exact List.mem_append.1 h

/-- A path behind another has no parent step if neither of them has one. -/
theorem Descends.join (hbase : base.Descends) (hp : p.Descends) : (base.join p).Descends :=
  fun h => (mem_fields_join h).elim hbase hp

/-- A name in a directory. -/
theorem Descends.child (hp : p.Descends) (hn : Descends ⟨name⟩) : (p.child name).Descends :=
  hp.join hn

/-- A step that is no parent step descends. -/
theorem descends_of_isStep (hn : IsStep name) (hne : name ≠ "..") : Descends ⟨name⟩ := by
  rw [Descends, fields, Text.fields_of_not_mem hn.1, List.mem_singleton]
  exact Ne.symm hne

/-- No dot, no parent step. -/
theorem descends_of_not_mem (h : '.' ∉ name.toList) : Descends ⟨name⟩ :=
  fun hmem => h (Text.mem_of_mem_fields hmem (by decide))

/-- Nor is there one in front of the suffix of a source or of bytecode. -/
theorem descends_append {suffix : String} (hs : suffix = sourceSuffix ∨ suffix = bytecodeSuffix)
    (h : '.' ∉ name.toList) : Descends ⟨name ++ suffix⟩ := by
  intro hmem
  have htwo := (Text.sublist_of_mem_fields hmem).count_le '.'
  have hone : suffix.toList.count '.' = 1 := by rcases hs with rfl | rfl <;> decide
  rw [String.toList_append, List.count_append, List.count_eq_zero_of_not_mem h, hone] at htwo
  exact absurd htwo (by decide)

/-- The empty path has no absolute form. -/
theorem absolute_of_text_eq (h : p.text = "") : p.absolute w = p := by
  simp [Path.absolute, h]

/-- Made absolute, a path without parent steps still has none. -/
theorem Descends.absolute (hp : p.Descends) (hw : w.Descends) (hwabs : w.isAbsolute = true) :
    (p.absolute w).Descends := by
  by_cases htext : p.text = ""
  · rwa [absolute_of_text_eq htext]
  · rw [descends_iff] at hw ⊢
    rw [components_absolute hwabs htext, List.mem_append, not_or]
    constructor
    · split
      · simp
      · exact hw
    · rw [filterMap_component? hp]
      simp

/-- Above a path without parent steps there is none. -/
theorem Descends.parent? {q : Path} (hp : p.Descends) (hq : p.parent? = some q) : q.Descends := by
  rw [descends_iff] at hp ⊢
  rw [components_parent? hq]
  exact fun h => hp (List.dropLast_subset _ h)

end Path

/-! ## Module files -/

namespace ModuleFile

variable {w p : Path} {f g : ModuleFile}

/-- A file that is written from the root without parent steps. The empty path has no absolute form. -/
structure Descends (f : ModuleFile) : Prop where
  isAbsolute : f.path.text ≠ "" → f.path.isAbsolute = true
  path : f.path.Descends

/-- The file of a path without parent steps has none. -/
theorem descends_ofPath (hw : w.Descends) (hwabs : w.isAbsolute = true) (hp : p.Descends) :
    (ofPath w p).Descends := by
  refine ⟨fun hne => ?_, hp.absolute hw hwabs⟩
  by_cases htext : p.text = ""
  · rw [ofPath, Path.absolute_of_text_eq htext] at hne
    exact absurd htext hne
  · exact isAbsolute_ofPath hwabs htext

/-- The identity of a file without parent steps has none. -/
theorem Descends.identity (h : f.Descends) : f.identity.Descends := by
  unfold ModuleFile.identity
  split
  · cases hq : f.path.parent? with
    | none => exact h.path
    | some q => exact h.path.parent? hq
  · exact h.path

/-- Files are at the same place if their paths have the same components. -/
theorem place_congr (h : f.path.components = g.path.components) : f.place = g.place := by
  have hinit : f.isInitEntry = g.isInitEntry := by rw [isInitEntry, isInitEntry, Path.fileName, Path.fileName, h]
  have hf := f.components_path
  have hg := g.components_path
  rw [h, hinit, hg] at hf
  split at hf
  · exact (List.append_cancel_right hf).symm
  · exact hf.symm

end ModuleFile

/-! ## Where paths lead -/

namespace FileTree

variable {t : FileTree} {dir p q : Path} {place place' : Place} {f : ModuleFile} {kind : ModuleKind} {name : String}

/-- Fields without parent steps lead down by their names. -/
theorem eq_of_foldlM_follow {fs : List String} (hfs : ".." ∉ fs) (h : fs.foldlM t.follow place = .ok place') :
    place' = place ++ fs.filter fun f => !Path.isIdle f := by
  induction fs generalizing place with
  | nil =>
    rw [List.filter_nil, List.append_nil]
    exact (Except.ok.inj h).symm
  | cons f fs ih =>
    rw [List.mem_cons, not_or] at hfs
    rw [List.foldlM_cons] at h
    cases hf : t.follow place f with
    | error err => simp [hf, bind, Except.bind] at h
    | ok next =>
      have hrest : fs.foldlM t.follow next = .ok place' := by simpa [hf, bind, Except.bind] using h
      obtain ⟨_, hidle, hname⟩ := follow_eq_ok hf
      rw [ih hfs.2 hrest]
      cases hi : Path.isIdle f with
      | true => rw [hidle hi, List.filter_cons_of_neg (by simp [hi])]
      | false =>
        rw [hname hi (Ne.symm hfs.1), List.filter_cons_of_pos (by simp [hi]), List.append_assoc, List.singleton_append]

/-- Nothing is found at the empty path. -/
theorem text_ne_of_locate (h : t.locate p = .ok place) : p.text ≠ "" := by
  intro htext
  simp [locate, htext] at h

/-- A path without parent steps, written from the root, has the names of the place that it leads to. -/
theorem components_of_locate (ht : t.IsWellFormed) (hw : t.workDir.Descends) (hp : p.Descends)
    (h : t.locate p = .ok place) : (p.absolute t.workDir).components = .root :: place.map .name := by
  have hne := text_ne_of_locate h
  obtain ⟨ws, _, hws⟩ := Path.exists_fields_of_isAbsolute ht.isAbsolute
  have hwtail : ".." ∉ t.workDir.fields.tail := fun hmem => hw (List.mem_of_mem_tail hmem)
  have hwcomp : t.workDir.components = .root :: t.workDir.fields.tail.filterMap Path.component? := by
    simp [Path.components, ht.isAbsolute]
  have hroot : ∀ fs : List String, ".." ∉ fs → fs.foldlM t.follow [] = .ok place →
      Path.Component.root :: fs.filterMap Path.component? = .root :: place.map .name := by
    intro fs hfs hfollow
    rw [Path.filterMap_component? hfs, eq_of_foldlM_follow hfs hfollow, List.nil_append]
  rw [Path.components_absolute ht.isAbsolute hne]
  simp only [locate, beq_iff_eq, hne, if_false] at h
  split at h
  · cases h
  split at h
  · cases h
  split at h
  next habs =>
    obtain ⟨fs, _, hfs⟩ := Path.exists_fields_of_isAbsolute habs
    have htail : ".." ∉ p.fields.tail := fun hmem => hp (List.mem_of_mem_tail hmem)
    rw [if_pos habs, ← hroot _ htail h, hfs, List.filterMap_cons_none (by decide)]
    rfl
  next hrel =>
    have hboth : ".." ∉ t.workDir.fields.tail ++ p.fields := by
      rw [List.mem_append, not_or]
      exact ⟨hwtail, hp⟩
    rw [if_neg hrel, ← hroot _ hboth h, hwcomp, List.filterMap_append]
    rfl

/-- Paths without parent steps that lead to one place are one module file. -/
theorem place_eq_of_locate (ht : t.IsWellFormed) (hw : t.workDir.Descends) (hp : p.Descends) (hq : q.Descends)
    (h : t.locate p = .ok place) (h' : t.locate q = .ok place) :
    (ModuleFile.ofPath t.workDir p).place = (ModuleFile.ofPath t.workDir q).place :=
  ModuleFile.place_congr ((components_of_locate ht hw hp h).trans (components_of_locate ht hw hq h').symm)

/-! ## What is found below a directory -/

section Found

variable (ht : t.IsWellFormed) (hw : t.workDir.Descends) (hdir : dir.Descends)

include ht hw hdir

/-- What is found at a directory descends from it. -/
theorem descends_of_moduleAtDirectory? (h : t.moduleAtDirectory? dir = some (f, kind)) : f.Descends := by
  obtain ⟨p, rfl, hp⟩ := directoryModule h
  refine ModuleFile.descends_ofPath hw ht.isAbsolute ?_
  cases hp with
  | entry => exact hdir.child (by decide)
  | bare => exact hdir

/-- What is found under a suffix descends from the directory. -/
theorem descends_of_fileWithSuffix? {suffix : String} {kind' : ModuleKind}
    (hs : suffix = sourceSuffix ∨ suffix = bytecodeSuffix) (hn : '.' ∉ name.toList)
    (h : t.fileWithSuffix? dir name suffix kind' = some (f, kind)) : f.Descends := by
  obtain ⟨_, rfl, _⟩ := fileWithSuffix?_eq_some h
  exact ModuleFile.descends_ofPath hw ht.isAbsolute (hdir.child (Path.descends_append hs hn))

/-- An extension module that is found descends from the directory. -/
theorem descends_of_extensionIn? (h : t.extensionIn? dir name = some (f, kind)) : f.Descends := by
  obtain ⟨file, hlists, _, rfl⟩ := exists_of_extensionIn? h
  obtain ⟨hstep, hne⟩ := ht.of_lists hlists
  exact ModuleFile.descends_ofPath hw ht.isAbsolute (hdir.child (Path.descends_of_isStep hstep hne))

/-- What is found under one component descends from the directory. -/
theorem descends_of_locateLeaf (hn : '.' ∉ name.toList) (h : t.locateLeaf dir name = some (f, kind)) : f.Descends := by
  have hchild : (dir.child name).Descends := hdir.child (Path.descends_of_not_mem hn)
  rcases locateLeaf_eq_some h with h | ⟨_, h | h | h⟩
  · exact descends_of_moduleAtDirectory? ht hw hchild h
  · exact descends_of_fileWithSuffix? ht hw hdir (Or.inl rfl) hn h
  · exact descends_of_extensionIn? ht hw hdir h
  · exact descends_of_fileWithSuffix? ht hw hdir (Or.inr rfl) hn h

/-- What is found under the components of a name descends from the directory. -/
theorem descends_of_locateComponents {names : List String} (hn : ∀ name ∈ names, '.' ∉ name.toList)
    (h : t.locateComponents dir names = some (f, kind)) : f.Descends := by
  induction names generalizing dir with
  | nil => cases h
  | cons name more ih =>
    have hname := hn name List.mem_cons_self
    unfold locateComponents at h
    split at h
    · cases h
    next hcons =>
      obtain ⟨rfl, rfl⟩ := List.cons.inj hcons
      split at h
      · cases h
      · exact descends_of_locateLeaf ht hw hdir hname h
    next hcons =>
      obtain ⟨rfl, rfl⟩ := List.cons.inj hcons
      split at h
      · cases h
      · exact ih (hdir.child (Path.descends_of_not_mem hname)) (fun n hmem => hn n (List.mem_cons_of_mem _ hmem)) h

/-- A dotted name has no parent steps in it, so what it leads to goes down from the directory. -/
theorem descends_of_locateIn {dotted : String} (h : t.locateIn dir dotted = some (f, kind)) : f.Descends :=
  descends_of_locateComponents ht hw hdir (fun _ hmem => Text.not_mem_of_mem_fields hmem) h

end Found

end FileTree

/-! ## What imports lead to -/

/-- A search path whose directories are written without parent steps. -/
def SearchPath.Descends (s : SearchPath) : Prop :=
  ∀ dir ∈ s.dirs, dir.Descends

/-- An edge to no file, or to one that is written from the root without parent steps. -/
def ImportEdge.Descends (edge : ImportEdge) : Prop :=
  ∀ file ∈ edge.file, file.Descends

namespace SearchPath

variable {t : FileTree} {s : SearchPath} {i : ImportStatement} {edge : ImportEdge} {at_ : SourceRef} {name : ModuleName}
  {file : ModuleFile} {kind : ModuleKind} {importer : ModuleRecord}

/-- Packages and directories go up together, and going up a directory takes no parent step. -/
theorem descends_of_climb {n : Nat} {base above : ModuleName × Path} (h : climb n base = some above)
    (hdir : base.2.Descends) : above.2.Descends := by
  induction n generalizing base with
  | zero =>
    cases h
    exact hdir
  | succ n ih =>
    obtain ⟨package, hpackage, h⟩ := Option.bind_eq_some_iff.1 h
    obtain ⟨dir, hparent, h⟩ := Option.bind_eq_some_iff.1 h
    exact ih h (hdir.parent? hparent)

/-- The directory of an importer's package has no parent step if its file has none. -/
theorem descends_of_homePackage? {home : ModuleName × Path} (h : homePackage? importer = some home)
    (himporter : importer.file.Descends) : home.2.Descends := by
  unfold homePackage? at h
  split at h
  · cases h
    exact himporter.identity
  · obtain ⟨package, hpackage, h⟩ := Option.bind_eq_some_iff.1 h
    obtain ⟨dir, hparent, h⟩ := Option.bind_eq_some_iff.1 h
    cases h
    exact himporter.path.parent? hparent

/-- The directory of a package has no parent step if its file has none. -/
theorem descends_of_packageDir? {dir : Path} (h : packageDir? t file = some dir) (hfile : file.Descends) :
    dir.Descends := by
  unfold packageDir? at h
  split at h
  · exact hfile.path.parent? h
  · split at h
    · cases h
      exact hfile.path
    · cases h

section Edges

variable (ht : t.IsWellFormed) (hw : t.workDir.Descends)

include ht hw

/-- What is found from search directories without parent steps has none. -/
theorem descends_of_locate (hs : s.Descends) (h : s.locate t name = some (file, kind)) : file.Descends := by
  obtain ⟨dir, hdir, h⟩ := List.exists_of_findSome?_eq_some h
  exact FileTree.descends_of_locateIn ht hw (hs dir hdir) h

/-- The members of a module without parent steps have none. -/
theorem descends_of_mem_memberEdges (hfile : file.Descends) (h : edge ∈ memberEdges t name file i at_) :
    edge.Descends := by
  intro f hf
  obtain ⟨dir, member, kind, hdir, _, _, hloc⟩ := exists_of_mem_memberEdges h hf
  exact FileTree.descends_of_locateIn ht hw (descends_of_packageDir? hdir hfile) hloc

/-- What absolute imports lead to has no parent step. -/
theorem descends_of_mem_resolveAbsolute (hs : s.Descends) (h : edge ∈ s.resolveAbsolute t i at_) : edge.Descends := by
  dsimp only [resolveAbsolute] at h
  split at h
  · obtain rfl := List.mem_singleton.1 h
    exact nofun
  · split at h
    · obtain rfl := List.mem_singleton.1 h
      exact nofun
    next file kind hloc =>
      rcases List.mem_append.1 h with h | h
      · obtain ⟨parent, _, h⟩ := List.mem_filterMap.1 h
        obtain ⟨⟨file', kind'⟩, hloc', rfl⟩ := Option.map_eq_some_iff.1 h
        rintro f ⟨⟩
        exact descends_of_locate ht hw hs hloc'
      · rcases List.mem_cons.1 h with rfl | h
        · rintro f ⟨⟩
          exact descends_of_locate ht hw hs hloc
        · exact descends_of_mem_memberEdges ht hw (descends_of_locate ht hw hs hloc) h

/-- What relative imports lead to has no parent step. -/
theorem descends_of_mem_resolveRelative (himporter : importer.file.Descends)
    (h : edge ∈ resolveRelative t importer i at_) : edge.Descends := by
  unfold resolveRelative at h
  split at h
  · obtain rfl := List.mem_singleton.1 h
    exact nofun
  next name dir hbase =>
    obtain ⟨home, hhome, hbase⟩ := Option.bind_eq_some_iff.1 hbase
    obtain ⟨⟨package, dir'⟩, hclimb, hbase⟩ := Option.bind_eq_some_iff.1 hbase
    cases hbase
    have hdir : dir.Descends := descends_of_climb hclimb (descends_of_homePackage? hhome himporter)
    split at h
    · obtain rfl := List.mem_singleton.1 h
      exact nofun
    next file kind hloc =>
      have hfile : file.Descends := by
        split at hloc
        · exact FileTree.descends_of_moduleAtDirectory? ht hw hdir hloc
        · exact FileTree.descends_of_locateIn ht hw hdir hloc
      rcases List.mem_cons.1 h with rfl | h
      · rintro f ⟨⟩
        exact hfile
      · exact descends_of_mem_memberEdges ht hw hfile h

/-- Imports of a module that is written without parent steps lead to modules that are. -/
theorem descends_of_mem_resolve (hs : s.Descends) (himporter : importer.file.Descends)
    (h : edge ∈ s.resolve t importer i) : edge.Descends := by
  dsimp only [resolve] at h
  split at h
  · exact descends_of_mem_resolveAbsolute ht hw hs h
  · exact descends_of_mem_resolveRelative ht hw himporter h

end Edges

end SearchPath

namespace BuildRequest

variable {t : FileTree} {r : BuildRequest} (ht : t.IsWellFormed) (hw : t.workDir.Descends) (hr : r.file.Descends)

include ht hw hr

/-- The module that is built for a request stands in the file of the request, or in the init entry below it. -/
theorem descends_target : (r.target t).1.file.Descends := by
  rcases r.target_spec t with ⟨hm, _⟩ | ⟨_, _, hfile | ⟨_, hfile⟩⟩
  · rw [hm]
    exact hr
  · rw [hfile]
    exact hr
  · rw [hfile]
    exact ModuleFile.descends_ofPath hw ht.isAbsolute (hr.path.child (by decide))

/-- So do the imports of the module. -/
theorem descends_of_yields {s : SearchPath} {uses : List ImportEdge} (hs : s.Descends) (h : s.Yields t r uses) :
    ∀ edge ∈ uses, edge.Descends := by
  intro edge hedge
  unfold SearchPath.Yields at h
  split at h
  · subst h
    cases hedge
  · obtain ⟨text, statements, _, _, rfl⟩ := h
    obtain ⟨i, _, hi⟩ := List.mem_flatMap.1 hedge
    exact SearchPath.descends_of_mem_resolve ht hw hs (descends_target ht hw hr) hi

end BuildRequest

/-! ## What matches a pattern -/

/-- A filename pattern that leads down: no step of it is a parent step, or matches one. -/
def FilePattern.Descends (p : FilePattern) : Prop :=
  ∀ step ∈ p.steps, FileGlob.literal? step ≠ some ".." ∧ ".." ∉ FileTree.dotNames step

namespace FileTree

variable {t : FileTree} {p : FilePattern} {path q : Path} {name : String}

/-- A step down keeps a path without parent steps. -/
theorem descends_stepInto (hpath : path.Descends) (hn : Path.Descends ⟨name⟩) : (stepInto path name).Descends := by
  unfold stepInto
  split
  · exact hn
  · exact hpath.child hn

/-- What matches a pattern that leads down is written without parent steps. -/
theorem descends_of_mem_matching (ht : t.IsWellFormed) {text : String} (hread : FilePattern.read text = .ok p)
    (hp : p.Descends) (hq : q ∈ t.matching p) : q.Descends := by
  obtain ⟨hroot, hnames⟩ := FilePattern.of_read hread
  have hstart : p.start.Descends := by rcases hroot with h | h <;> rw [h] <;> decide
  refine of_mem_matching ⟨?_, ?_, ?_⟩ hstart hq
  · intro step hstep name hname path hpath
    refine descends_stepInto hpath ?_
    rw [Path.Descends, Path.fields, Text.fields_of_not_mem (hnames step hstep name hname), List.mem_singleton]
    rintro rfl
    exact (hp step hstep).1 hname
  · intro step hstep name hname path hpath
    refine hpath.child ?_
    rcases mem_dotNames hname with rfl | rfl
    · exact absurd hname (hp step hstep).2
    · decide
  · intro path name hname hpath
    cases hl : t.list path with
    | error cause =>
      rw [hl] at hname
      cases hname
    | ok names =>
      rw [hl] at hname
      obtain ⟨hstep, hne⟩ := (ht.names_of_list hl).2 name hname
      exact descends_stepInto hpath (Path.descends_of_isStep hstep hne)

end FileTree

end ImportClosure
