import ImportClosure.Proofs.Gains
import ImportClosure.Proofs.InitEntry
import ImportClosure.Proofs.PackageWalk
import ImportClosure.Proofs.WalkGraph

/-!
# Names that siblings share

A walk names a module after the entries on the way to it, so two modules get one name only where two entries of one
directory are walked under it, or under the name of a package around it (`FileTree.Shared`). In the directory of a
package a source keeps out the directory of its name, so there one of the two has a dot elsewhere than in front of its
suffix (`FileTree.Covers.unique`). A directory that is no package has no such rule.
-/

namespace ImportClosure

open Step

/-- The record that a builder over sources gives for what a path asks about. -/
def Query.record (q : Query) (t : FileTree) : ModuleRecord :=
  (BuildRequest.target ⟨q.name, q.file, q.kind, false, true⟩ t).1

namespace Query

variable {t : FileTree}

@[simp] theorem name_record (q : Query) (t : FileTree) : (q.record t).name = q.name :=
  BuildRequest.name_target _ t

theorem isAbsolute_record {q : Query} (hw : t.workDir.isAbsolute = true) (h : q.file.path.isAbsolute = true) :
    (q.record t).file.path.isAbsolute = true := by
  rcases BuildRequest.target_spec ⟨q.name, q.file, q.kind, false, true⟩ t with ⟨htarget, _⟩ | ⟨_, _, hfile | ⟨_, hfile⟩⟩
  · rw [record, htarget]
    exact h
  · rw [record, hfile]
    exact h
  · rw [record, hfile]
    exact ModuleFile.isAbsolute_ofPath hw (ModuleFile.text_ne_nil_of_isAbsolute (Path.isAbsolute_child h _))

end Query

/-! ## Entries of one directory -/

namespace FileTree

variable {t : FileTree} {dir : Path} {n package : ModuleName} {x y : String}

/-- Whether a walk takes an entry of a directory, in a package or outside of any. -/
def takes (t : FileTree) (dir : Path) : Option ModuleName → String → Bool
  | some _ => Engine.isMember t dir
  | none => Engine.isTopLevel t dir

/-- An entry of a directory is walked, under a certain name or under that of a package around it. -/
structure Covers (t : FileTree) (dir : Path) (package : Option ModuleName) (n : ModuleName) (x : String) : Prop where
  lists : t.Lists dir x
  taken : t.takes dir package x = true
  begins : ∃ q, t.query? (dir.child x) package = some q ∧ q.name.components <+: n.components

/-- An entry is found at its path, and has no dot in its name but that of the suffix of a source. -/
structure IsRegular (t : FileTree) (dir : Path) (x : String) : Prop where
  found : t.exists? (dir.child x) = true
  dots : '.' ∉ x.toList ∨ ∃ bare, '.' ∉ bare.toList ∧ x = bare ++ sourceSuffix

/-- Two entries of a directory are walked under one name, or one of them under that of a package around it. In a package
they are not both regular. -/
inductive Shared (t : FileTree) (dir : Path) : Option ModuleName → ModuleName → Prop where
  | plain {n : ModuleName} {x y : String} (hne : x ≠ y) (hx : t.Covers dir none n x) (hy : t.Covers dir none n y) :
      Shared t dir none n
  | package {package n : ModuleName} {x y : String} (hne : x ≠ y) (hx : t.Covers dir (some package) n x)
      (hy : t.Covers dir (some package) n y) (hstray : ¬ (t.IsRegular dir x ∧ t.IsRegular dir y)) :
      Shared t dir (some package) n

/-- The fields of a name begin with its stem. -/
theorem exists_fields_eq_stem (x : String) : ∃ more, Text.fields '.' x = stem x :: more := by
  obtain ⟨more, hmore⟩ := Text.exists_fields '.' x
  exact ⟨more, by rw [stem, hmore]; rfl⟩

theorem not_mem_stem (x : String) : '.' ∉ (stem x).toList := by
  obtain ⟨more, hmore⟩ := exists_fields_eq_stem x
  exact Text.not_mem_of_mem_fields (hmore ▸ List.mem_cons_self)

/-- A regular entry is its stem, or its stem with the suffix of a source. -/
theorem IsRegular.eq_stem_or (h : t.IsRegular dir x) : x = stem x ∨ x = stem x ++ sourceSuffix := by
  rcases h.dots with hx | ⟨bare, hbare, rfl⟩
  · left
    rw [stem, Text.fields_of_not_mem hx]
    rfl
  · right
    rw [show stem (bare ++ sourceSuffix) = bare from stem_append hbare "py"]

/-- An entry that is walked in a package goes by a name that has the stem of the entry behind the package. -/
theorem Covers.stem_prefix (ht : t.IsWellFormed) (hd : dir.isAbsolute = true) (h : t.Covers dir (some package) n x) :
    package.components ++ [stem x] <+: n.components := by
  obtain ⟨hn, hne⟩ := ht.of_lists h.lists
  obtain ⟨q, hq, hpre⟩ := h.begins
  obtain ⟨⟨bare, kind⟩, hat, rfl⟩ := Option.map_eq_some_iff.1 hq
  have hbare : ∃ more, Text.fields '.' bare = stem x :: more := by
    have hname : (ModuleFile.ofPath t.workDir (dir.child x)).path.fileName = some x := by
      rw [ModuleFile.fileName_ofPath ht.isAbsolute (Path.isAbsolute_child hd x), Path.fileName_child hd hn hne]
    rw [moduleAt?, hname, Option.bind_some] at hat
    split at hat
    · cases hat
      exact exists_fields_eq_stem x
    · split at hat
      · cases hat
      · obtain ⟨_, _, hkind⟩ := Option.map_eq_some_iff.1 hat
        cases hkind
        exact ⟨[], Text.fields_of_not_mem (not_mem_stem x)⟩
  obtain ⟨more, hmore⟩ := hbare
  refine List.IsPrefix.trans ?_ hpre
  rw [show ModuleName.inPackage bare (some package) = package.child bare from rfl, ModuleName.components_child, hmore]
  exact ⟨more, by simp⟩

/-- A directory is no member of a package where a source of its name is found. -/
theorem not_exists_of_isMember (hd : dir.isAbsolute = true) (hn : Path.IsStep x) (hdot : '.' ∉ x.toList)
    (h : Engine.isMember t dir x = true) : t.exists? (dir.child (x ++ sourceSuffix)) = false := by
  rcases (isMember_iff hd hn).1 h with hsub | ⟨_, hends⟩
  · exact hsub.unshadowed
  · rw [Text.endsWith, List.isSuffixOf_iff_suffix] at hends
    exact absurd (hends.subset (by decide)) hdot

/-- In a package, regular entries go by different names. -/
theorem Covers.unique (ht : t.IsWellFormed) (hd : dir.isAbsolute = true) (hx : t.Covers dir (some package) n x)
    (hy : t.Covers dir (some package) n y) (hrx : t.IsRegular dir x) (hry : t.IsRegular dir y) : x = y := by
  have hstem : stem x = stem y := by
    have hpre := List.prefix_of_prefix_length_le (hx.stem_prefix ht hd) (hy.stem_prefix ht hd) (by simp)
    simpa using hpre.eq_of_length (by simp)
  -- a stem beside the stem with the suffix of a source is a directory that the source keeps out
  have hkeepsOut : ∀ {x y : String}, t.Covers dir (some package) n x → t.IsRegular dir y → x = stem x →
      y = x ++ sourceSuffix → False := by
    intro x y hx hry hstem rfl
    have hnone := not_exists_of_isMember hd (ht.of_lists hx.lists).1 (hstem ▸ not_mem_stem x) hx.taken
    rw [hry.found] at hnone
    cases hnone
  rcases hrx.eq_stem_or with hxs | hxs <;> rcases hry.eq_stem_or with hys | hys
  · rw [hxs, hys, hstem]
  · exact (hkeepsOut hx hry hxs (by rw [hys, hxs, hstem])).elim
  · exact (hkeepsOut hy hrx hys (by rw [hxs, hys, hstem])).elim
  · rw [hxs, hys, hstem]

/-- Two entries of a directory that cover one name share it. -/
theorem Shared.of_covers (ht : t.IsWellFormed) (hd : dir.isAbsolute = true) (hne : x ≠ y)
    (hx : t.Covers dir (some package) n x) (hy : t.Covers dir (some package) n y) : t.Shared dir (some package) n :=
  .package hne hx hy fun ⟨hrx, hry⟩ => hne (hx.unique ht hd hy hrx hry)

end FileTree

/-! ## What a path leads to -/

/-- A name is shorter than those of the modules in it. -/
theorem ModuleName.length_lt_child (n : ModuleName) (x : String) :
    n.components.length < (n.child x).components.length := by
  have hpos := List.length_pos_iff.2 (ModuleName.components_ne_nil ⟨x⟩)
  rw [components_child, List.length_append]
  exact Nat.lt_add_of_pos_right hpos

namespace FileTree

/-- A path leads to the module that it asks about and, if this is a package that is kept, to all that the members of the
package lead to. -/
inductive LeadsTo (t : FileTree) (kept : ModuleRecord → Prop) : Path → Option ModuleName → ModuleRecord → Prop where
  | here {path : Path} {package : Option ModuleName} {q : Query} (hq : t.query? path package = some q) :
      LeadsTo t kept path package (q.record t)
  | inside {path : Path} {package : Option ModuleName} {q : Query} {x : String} {m : ModuleRecord}
      (hq : t.query? path package = some q) (hk : kept (q.record t)) (hp : (q.record t).isPackage = true)
      (hx : t.Lists (q.record t).file.identity x) (hm : Engine.isMember t (q.record t).file.identity x = true)
      (h : LeadsTo t kept ((q.record t).file.identity.child x) (some (q.record t).name) m) :
      LeadsTo t kept path package m

/-- What the items of a walk lead to, files and package directories. -/
def LeadsFrom (t : FileTree) (kept : ModuleRecord → Prop) (items : List WalkItem) (m : ModuleRecord) : Prop :=
  ∃ path package, .single path package ∈ items ∧ t.LeadsTo kept path package m

/-- The directories whose entries the walk of a path takes: the path itself unless it is a package, and those of the
packages that are kept. -/
inductive IsListed (t : FileTree) (path : Path) (kept : ModuleRecord → Prop) : Path → Option ModuleName → Prop where
  | plain (h : t.isRealPackage path = false) : IsListed t path kept path none
  | package {k : ModuleRecord} (hk : kept k) (hp : k.isPackage = true) :
      IsListed t path kept k.file.identity (some k.name)

variable {t : FileTree} {kept kept' : ModuleRecord → Prop} {path dir : Path} {package : Option ModuleName}
  {m m' : ModuleRecord} {n : ModuleName} {x : String}

namespace LeadsTo

/-- What a path leads to it leads to if more is kept. -/
theorem mono (h : t.LeadsTo kept path package m) (hle : ∀ k, kept k → kept' k) : t.LeadsTo kept' path package m := by
  induction h with
  | here hq => exact .here hq
  | inside hq hk hp hx hm _ ih => exact .inside hq (hle _ hk) hp hx hm ih

/-- What leads to a package that is kept leads to all that its members lead to. -/
theorem extend (h : t.LeadsTo kept path package m) (hk : kept m) (hp : m.isPackage = true)
    (hx : t.Lists m.file.identity x) (hm : Engine.isMember t m.file.identity x = true)
    (h' : t.LeadsTo kept (m.file.identity.child x) (some m.name) m') : t.LeadsTo kept path package m' := by
  induction h with
  | here hq => exact .inside hq hk hp hx hm h'
  | inside hq hk' hp' hx' hm' _ ih => exact .inside hq hk' hp' hx' hm' (ih hk hp hx hm h')

/-- The modules that a path leads to have names that begin with the one that the path asks about. -/
theorem begins (h : t.LeadsTo kept path package m) :
    ∃ q, t.query? path package = some q ∧ q.name.components <+: m.name.components := by
  induction h with
  | here hq => exact ⟨_, hq, by simp⟩
  | @inside path package q x m hq _ _ _ _ _ ih =>
    obtain ⟨member, hmember, hpre⟩ := ih
    obtain ⟨found, _, rfl⟩ := Option.map_eq_some_iff.1 hmember
    have hpackage : q.name.components <+: (q.name.child found.1).components := by
      rw [ModuleName.components_child]
      exact List.prefix_append _ _
    rw [Query.name_record] at hpre
    exact ⟨q, hq, hpackage.trans hpre⟩

/-- The modules in a package have longer names. -/
theorem length_lt (h : t.LeadsTo kept path (some n) m) : n.components.length < m.name.components.length := by
  obtain ⟨q, hq, hpre⟩ := h.begins
  obtain ⟨found, _, rfl⟩ := Option.map_eq_some_iff.1 hq
  exact (n.length_lt_child found.1).trans_le hpre.length_le

/-- Two modules of one name that a path leads to are one, unless two members of a package share the name. -/
theorem unique (ht : t.IsWellFormed) (h : t.LeadsTo kept path package m) (h' : t.LeadsTo kept path package m')
    (hname : m.name = m'.name) :
    m = m' ∨ ∃ k, kept k ∧ k.isPackage = true ∧ t.Shared k.file.identity (some k.name) m.name := by
  induction h generalizing m' with
  | @here path package q hq =>
    cases h' with
    | here hq' =>
      cases hq.symm.trans hq'
      exact Or.inl rfl
    | inside hq' _ _ _ _ h' =>
      cases hq.symm.trans hq'
      exact absurd (congrArg (fun n => n.components.length) hname) h'.length_lt.ne
  | @inside path package q x m hq hk hp hx hm h ih =>
    cases h' with
    | here hq' =>
      cases hq.symm.trans hq'
      exact absurd (congrArg (fun n => n.components.length) hname) h.length_lt.ne'
    | @inside _ _ _ y _ hq' _ _ hy hm' h' =>
      cases hq.symm.trans hq'
      by_cases hxy : x = y
      · subst hxy
        exact ih h' hname
      · have hfile : q.file.path.isAbsolute = true := by
          rw [file_of_query? hq]
          exact ModuleFile.isAbsolute_ofPath ht.isAbsolute (text_ne_of_query? hq)
        have hd := ModuleFile.isAbsolute_identity (Query.isAbsolute_record ht.isAbsolute hfile)
        refine Or.inr ⟨_, hk, hp, .of_covers ht hd hxy ⟨hx, hm, h.begins⟩ ?_⟩
        rw [hname]
        exact ⟨hy, hm', h'.begins⟩

end LeadsTo

/-- Two modules of one name that a walked path leads to are one, unless two entries of a directory share the name. -/
theorem LeadsFrom.unique (ht : t.IsWellFormed) {children : List WalkItem} (hc : t.opened dir none = .ok children)
    (h : t.LeadsFrom kept children m) (h' : t.LeadsFrom kept children m') (hname : m.name = m'.name) :
    m = m' ∨ ∃ d package, t.IsListed dir kept d package ∧ t.Shared d package m.name := by
  obtain ⟨path, package, hmem, h⟩ := h
  obtain ⟨path', package', hmem', h'⟩ := h'
  have hsame : path = path' → package = package' →
      m = m' ∨ ∃ d package, t.IsListed dir kept d package ∧ t.Shared d package m.name := by
    rintro rfl rfl
    exact (h.unique ht h' hname).imp_right fun ⟨k, hk, hp, hshared⟩ => ⟨_, _, .package hk hp, hshared⟩
  by_cases hself : (t.isFile dir || t.isRealPackage dir) = true
  · have hitself : t.opened dir none = .ok [.single dir none] := by rw [opened, if_pos hself]
    cases hitself.symm.trans hc
    cases List.mem_singleton.1 hmem
    cases List.mem_singleton.1 hmem'
    exact hsame rfl rfl
  · rcases opened_eq_ok hc with ⟨hself', _⟩ | rfl | ⟨names, hl, rfl⟩
    · exact absurd hself' hself
    · cases hmem
    · obtain ⟨x, hx, hsingle⟩ := List.mem_map.1 hmem
      obtain ⟨y, hy, hsingle'⟩ := List.mem_map.1 hmem'
      cases hsingle
      cases hsingle'
      obtain ⟨hx, htaken⟩ := List.mem_filter.1 hx
      obtain ⟨hy, htaken'⟩ := List.mem_filter.1 hy
      by_cases hxy : x = y
      · exact hsame (congrArg dir.child hxy) rfl
      · have hplain : t.isRealPackage dir = false := by
          rw [← Bool.not_eq_true]
          exact fun hreal => hself (by rw [hreal, Bool.or_true])
        refine Or.inr ⟨dir, none, .plain hplain, .plain hxy ⟨⟨names, hl, hx⟩, htaken, h.begins⟩ ?_⟩
        rw [hname]
        exact ⟨⟨names, hl, hy⟩, htaken', h'.begins⟩

end FileTree

/-! ## Walks -/

/-- A session keeps a record. -/
def Session.Holds {σ : Type} (s : Session σ) (m : ModuleRecord) : Prop :=
  s.cache.find? m.identity = some m

/-- A session in which every module that is kept is one that the first items of a walk lead to. -/
structure Engine.Stems {σ : Type} (e : Engine σ) (first : List WalkItem) (s : Session σ) : Prop where
  remembers : e.Remembers s
  nodup : (s.cache.modules.map ModuleRecord.identity).Nodup
  ledTo : ∀ m ∈ s.cache.modules, e.tree.LeadsFrom s.Holds first m

/-- An item leads to nothing but what the first items of a walk lead to, whatever else comes to be kept. -/
def Engine.AddsNothing {σ : Type} (e : Engine σ) (first : List WalkItem) (s : Session σ) (item : WalkItem) : Prop :=
  ∃ path package, item = .single path package ∧ ∀ kept : ModuleRecord → Prop, (∀ m, s.Holds m → kept m) →
    ∀ m, e.tree.LeadsTo kept path package m → e.tree.LeadsFrom kept first m

namespace Engine

variable {e : Engine (List Identity)} {p : SearchPath} {first : List WalkItem} {s s' : Session (List Identity)}
  {item : WalkItem} {path : Path} {package : Option ModuleName} {m : ModuleRecord}

/-- What is given for a path is the record of what the path asks about. -/
theorem eq_record_of_grants (he : e.builder = .ofSources p e.tree) {q : Query} {r : RecursionRequest} (hr : r.AsksFor q)
    (h : e.Grants r m) : m = q.record e.tree := by
  obtain ⟨_, x, o, ho, rfl⟩ := h
  obtain ⟨hname, hfile, hkind⟩ := hr
  rw [he] at ho
  rw [(Builder.given_of_ofSources ho).1, Query.record, RecursionRequest.toBuild, hname, hfile, hkind]

/-- What adds nothing adds nothing later on. -/
theorem AddsNothing.move {a : Action} (h : e.AddsNothing first s item) (hm : Move e a s s') :
    e.AddsNothing first s' item := by
  obtain ⟨path, package, hitem, hleads⟩ := h
  exact ⟨path, package, hitem, fun kept hkept => hleads kept fun m hk => hkept m (hm.find?_mono hk)⟩

/-- While an item is walked that adds nothing, only what the first items lead to comes to be kept. -/
theorem Stems.move (he : e.builder = .ofSources p e.tree) (h : e.Stems first s)
    (hitem : e.AddsNothing first s (.single path package)) {a : Action}
    (ha : Action.Visits e (e.tree.query? path package) a) (hm : Move e a s s') : e.Stems first s' where
  remembers := h.remembers.move hm
  nodup := hm.nodup_kept h.nodup
  ledTo m hmem := by
    rcases mem_of_visits hm ha hmem with hmem | ⟨q, r, hq, hr, hgrants⟩
    · obtain ⟨path, package, hfirst, hleads⟩ := h.ledTo m hmem
      exact ⟨path, package, hfirst, hleads.mono fun k hk => hm.find?_mono hk⟩
    · obtain ⟨_, _, hsingle, hleads⟩ := hitem
      cases hsingle
      rw [eq_record_of_grants he hr hgrants]
      exact hleads s'.Holds (fun k hk => hm.find?_mono hk) _ (.here hq)

/-- The members of a package that is kept add nothing. -/
theorem Registered.addsNothing (h : e.Stems first s) (hk : s.Holds m) {children : List WalkItem}
    (hm : e.Registered m children) : ∀ child ∈ children, e.AddsNothing first s child := by
  intro child hmem
  rcases hm with ⟨_, rfl⟩ | ⟨hp, names, hl, rfl⟩
  · cases hmem
  · obtain ⟨x, hx, rfl⟩ := List.mem_map.1 hmem
    obtain ⟨hx, hmember⟩ := List.mem_filter.1 hx
    refine ⟨_, _, rfl, fun kept hkept k hleads => ?_⟩
    obtain ⟨path, package, hfirst, hm⟩ := h.ledTo m (List.mem_of_find?_eq_some hk)
    exact ⟨path, package, hfirst, (hm.mono hkept).extend (hkept m hk) hp ⟨names, hl, hx⟩ hmember hleads⟩

/-- To walk an item that adds nothing leaves items that add nothing. -/
theorem walkSingle_stems (he : e.builder = .ofSources p e.tree) (h : e.Stems first s)
    (hitem : e.AddsNothing first s (.single path package)) :
    Keeps (e.Stems first) (e.walkSingle path package) s fun children s' =>
      (∀ child ∈ children, e.AddsNothing first s' child) ∧
        ∀ item, e.AddsNothing first s item → e.AddsNothing first s' item := by
  have hleads := walkSingle_leads h.remembers path package
  have hkeeps : Keeps (fun s' => e.Stems first s' ∧ ∀ item, e.AddsNothing first s item → e.AddsNothing first s' item)
      (e.walkSingle path package) s (e.Visited path package) :=
    .of_leads hleads (fun a s₁ s₂ ha hm ⟨h₁, hadds⟩ =>
      ⟨h₁.move he (hadds _ hitem) ha hm, fun item hitem => (hadds item hitem).move hm⟩) ⟨h, fun _ hitem => hitem⟩
  refine ⟨hkeeps.1.1, fun children s' hends => ?_⟩
  have hafter := hkeeps.1
  rw [hends] at hafter
  refine ⟨?_, hafter.2⟩
  cases hkeeps.2 children s' hends with
  | registered _ _ _ _ hk hm => exact hm.addsNothing hafter.1 hk
  | _ => exact fun _ hmem => nomatch hmem

/-- Items that add nothing leave it at modules that the first items of a walk lead to. -/
theorem walkStack_stems (he : e.builder = .ofSources p e.tree) (bound : Nat) (items : List WalkItem)
    (hitems : ∀ item ∈ items, e.AddsNothing first s item) (h : e.Stems first s) :
    Keeps (e.Stems first) (e.walkStack bound items) s fun _ _ => True := by
  induction bound generalizing items s with
  | zero =>
    cases items with
    | nil => exact .pure h trivial
    | cons item rest => exact .throw _ h
  | succ bound ih =>
    cases items with
    | nil => exact .pure h trivial
    | cons item rest =>
      have hitem := hitems item List.mem_cons_self
      obtain ⟨path, package, rfl, _⟩ := hitems item List.mem_cons_self
      refine .bind (walkSingle_stems he h hitem) fun children s₁ h₁ ⟨hchildren, hadds⟩ => ih _ (fun child hmem => ?_) h₁
      rcases List.mem_append.1 hmem with hmem | hmem
      · exact hchildren child hmem
      · exact hadds child (hitems child (List.mem_cons_of_mem _ hmem))

theorem Stems.of_nil (hs : e.Remembers s) (h : s.cache.modules = []) : e.Stems first s := by
  refine ⟨hs, ?_, ?_⟩ <;> rw [h]
  · exact List.nodup_nil
  · exact fun _ hmem => nomatch hmem

/-- Opening a path keeps no module. -/
theorem walkPath_keepsNothing (path : Path) (package : Option ModuleName) (hs : e.Remembers s)
    (h : s.cache.modules = []) : Keeps (fun s => e.Remembers s ∧ s.cache.modules = []) (e.walkPath path package) s
      fun children _ => e.tree.opened path package = .ok children := by
  have hleads : Leads e (Action.Visits e none) (e.walkPath path package) s _ := walkPath_leads path package trivial
  refine .of_leads hleads (fun a s s' ha hm ⟨hs, hnone⟩ => ?_) ⟨hs, h⟩
  refine ⟨hs.move hm, List.eq_nil_iff_forall_not_mem.2 fun k hk => ?_⟩
  rcases mem_of_visits hm ha hk with hk | ⟨_, _, hq, _⟩
  · rw [hnone] at hk
    cases hk
  · cases hq

/-- Behind a walk of a path every module that is kept is one that the path leads to. -/
theorem exists_stems (he : e.builder = .ofSources p e.tree) (dir : Path) :
    ∃ first, (first = [] ∨ e.tree.opened dir none = .ok first) ∧
      e.Stems first (ends (e.walk (.path dir none)) (.fresh [])).2 := by
  have hfresh : e.Remembers (.fresh []) := .of_nil rfl
  obtain ⟨hquiet, hopened⟩ := walkPath_keepsNothing dir none hfresh rfl
  unfold walk
  rcases hends : ends (e.expand (.path dir none)) (.fresh []) with ⟨err | first, s₁⟩ <;>
    rw [show ends (e.walkPath dir none) (.fresh []) = _ from hends] at hquiet
  · rw [ends_bind_error hends]
    exact ⟨[], Or.inl rfl, .of_nil hquiet.1 hquiet.2⟩
  · rw [ends_bind_ok hends]
    have hfirst := hopened first s₁ hends
    have hnone : e.Stems first s₁ := .of_nil hquiet.1 hquiet.2
    refine ⟨first, Or.inr hfirst, (walkStack_stems he _ first (fun item hmem => ?_) hnone).1⟩
    have hsingle := FileTree.isSingle_of_opened hfirst item hmem
    cases item with
    | single path package => exact ⟨path, package, rfl, fun _ _ _ hm => ⟨path, package, hmem, hm⟩⟩
    | _ => cases hsingle

end Engine

/-- Behind a walk of any path, from a fresh session over the sources of a tree and under any policy, two modules that
are kept have different names, unless two entries of a directory that was listed share the name. In the directory of a
package one of these has a dot elsewhere than in front of its suffix, or is not found at its path. -/
theorem names_apart_or_shared {e : Engine (List Identity)} {p : SearchPath} (he : e.builder = .ofSources p e.tree)
    (ht : e.tree.IsWellFormed) (dir : Path) :
    let s := (ends (e.walk (.path dir none)) (.fresh [])).2
    s.cache.modules.Pairwise fun m m' => m.name = m'.name →
      ∃ d package, e.tree.IsListed dir s.Holds d package ∧ e.tree.Shared d package m.name := by
  intro s
  obtain ⟨first, hfirst, hstems⟩ := Engine.exists_stems he dir
  refine (List.pairwise_map.1 hstems.nodup).imp_of_mem fun hm hm' hne hname => ?_
  have hled := hstems.ledTo _ hm
  have hled' := hstems.ledTo _ hm'
  rcases hfirst with rfl | hopened
  · obtain ⟨_, _, hmem, _⟩ := hled
    cases hmem
  · rcases hled.unique ht hopened hled' hname with rfl | hshared
    · exact absurd rfl hne
    · exact hshared

/-! ## A source beside a directory -/

/-- A directory without init entry that has a source in it, and a directory of the name of the source. -/
def FileTree.scripts : FileTree :=
  (empty ⟨"/w"⟩).addAll [(["w", "scripts", "x", "notes.txt"], .text ""), (["w", "scripts", "x.py"], .text "")]

theorem FileTree.isSourceTree_scripts : scripts.IsSourceTree where
  toIsWellFormed := (isWellFormed_empty (by decide) (by decide)).addAll (by decide)
  undotted := by decide +kernel
  parses := by decide +kernel

theorem FileTree.list_scripts : scripts.list ⟨"/w/scripts"⟩ = .ok ["x", "x.py"] := by
  have hplace : scripts.locate ⟨"/w/scripts"⟩ = .ok ["w", "scripts"] := by decide +kernel
  have hcontent : scripts.content? ["w", "scripts"] = some .directory := by decide +kernel
  have hchildren : scripts.childNames ["w", "scripts"] = ["x", "x.py"] := by decide +kernel
  simp only [list, hplace, hcontent, hchildren, bind, Except.bind]
  rw [List.mergeSort_of_pairwise (by decide)]

namespace Engine

/-- A walk of this directory keeps the directory in it and the source under one name. -/
theorem exists_walk_scripts :
    ∃ s, ends ((overSources .scripts).walk (.path ⟨"/w/scripts"⟩ none)) (.fresh []) = (.ok (), s) ∧
      s.cache.modules = [⟨⟨"x"⟩, ⟨⟨"/w/scripts/x"⟩⟩, .source, true, false, none⟩,
        ⟨⟨"x"⟩, ⟨⟨"/w/scripts/x.py"⟩⟩, .source, false, false, none⟩] := by
  have ht := FileTree.isSourceTree_scripts
  have hpolicy : (overSources .scripts).policy.IsPermissive := ⟨rfl, rfl, rfl, rfl⟩
  have hroot : Path.IsCanonical ⟨"/w/scripts"⟩ (overSources .scripts).tree.workDir := ⟨by decide, by decide⟩
  have hx := hroot.child (show Path.IsStep "x" by decide)
  have hmain : ModuleName.inPackage "x" none ≠ .main := by decide
  -- the directory stands for its two entries
  have htaken : ["x", "x.py"].filter (isTopLevel (overSources .scripts).tree ⟨"/w/scripts"⟩) = ["x", "x.py"] := by
    decide +kernel
  obtain ⟨s₀, hopened, h₀⟩ := (HasBuilt.fresh (overSources .scripts)).exists_walkPath_plain none (by decide +kernel)
    (by decide +kernel) FileTree.list_scripts
  rw [htaken] at hopened
  -- the one is a package that has no members
  have hnone : FileTree.scripts.membersIn (Path.child ⟨"/w/scripts"⟩ "x") (.inPackage "x" none) ["notes.txt"] = [] := by
    decide +kernel
  obtain ⟨s₁, hpackage, h₁⟩ := HasIncluded.exists_package (p := {}) rfl ht hpolicy h₀
    (ModuleFile.ofPath_of_isCanonical hx) hx (show _ = some "x" by decide) (by decide) (by decide +kernel)
    (show _ = Except.ok ["notes.txt"] by decide +kernel) hmain List.not_mem_nil
  rw [show (overSources .scripts).tree = .scripts from rfl, hnone] at hpackage
  -- the other is a source
  have hmodule : FileTree.scripts.IsSubmodule ⟨"/w/scripts"⟩ "x.py" :=
    ⟨by decide, by decide +kernel, by decide, by decide⟩
  obtain ⟨s₂, hsource, h₂⟩ :=
    h₁.exists_submodule (p := {}) rfl ht hpolicy hroot (by decide) hmodule hmain (by decide +kernel)
  have hused : (overSources .scripts).UsesUp (1 + 0 + (1 + 0 + 0))
      [.single (Path.child ⟨"/w/scripts"⟩ "x") none, .single (Path.child ⟨"/w/scripts"⟩ "x.py") none] s₀ s₂ :=
    .cons hpackage .nil (.cons hsource .nil .nil)
  refine ⟨s₂, ?_, ?_⟩
  · unfold walk
    rw [ends_bind_ok (show ends ((overSources .scripts).expand (.path ⟨"/w/scripts"⟩ none)) _ = _ from hopened)]
    exact (hused 13 []).trans (ends_walkStack_nil _ _ _)
  · rw [h₂.modules]
    decide +kernel

/-- So a walk of a directory that is no package gives one name to two files. -/
theorem scripts_repeats_name :
    ∃ s, ends ((overSources .scripts).walk (.path ⟨"/w/scripts"⟩ none)) (.fresh []) = (.ok (), s) ∧
      ¬ (s.cache.modules.map ModuleRecord.name).Nodup := by
  obtain ⟨s, hwalk, hmodules⟩ := exists_walk_scripts
  refine ⟨s, hwalk, ?_⟩
  rw [hmodules]
  decide

end Engine

/-- In this directory two entries share the name. -/
theorem names_apart_or_shared_scripts :
    let e := Engine.overSources .scripts
    ∃ s, ends (e.walk (.path ⟨"/w/scripts"⟩ none)) (.fresh []) = (.ok (), s) ∧
      s.cache.modules.map (fun m => m.file.path.text) = ["/w/scripts/x", "/w/scripts/x.py"] ∧
      ∃ d package, e.tree.IsListed ⟨"/w/scripts"⟩ s.Holds d package ∧ e.tree.Shared d package ⟨"x"⟩ := by
  intro e
  obtain ⟨s, hwalk, hmodules⟩ := Engine.exists_walk_scripts
  have ht : e.tree.IsWellFormed := FileTree.isSourceTree_scripts.toIsWellFormed
  have hpairs := names_apart_or_shared (p := {}) rfl ht ⟨"/w/scripts"⟩
  simp only [e, hwalk, hmodules] at hpairs
  refine ⟨s, hwalk, ?_, List.rel_of_pairwise_cons hpairs List.mem_cons_self rfl⟩
  rw [hmodules]
  rfl

end ImportClosure
