import ImportClosure.Proofs.Confined
import ImportClosure.Proofs.Descents
import ImportClosure.Proofs.Explored
import ImportClosure.Proofs.InitEntry
import ImportClosure.Proofs.PackageWalk

/-!
# One file is one module of a name

In a session over sources that is given no path with a parent step, all files that are kept and all files that queued
modules import are written from the root without such a step (`Engine.Descended`). So no file is kept twice under one name
(`unique_of_locate`). Parent steps are steps like any other: a file that is walked by two paths, one of which goes up on the
way, is kept twice (`Engine.detour_keeps_two`).
-/

namespace ImportClosure

open Step

/-! ## What a session is given -/

/-- Plugins that declare imports of files without parent steps only. -/
def Plugins.Descends (p : Plugins) : Prop :=
  ∀ m imports, p.implicitImports m = .ok imports → ∀ i ∈ imports, ∀ file ∈ i.file, file.Descends

/-- What plugin rules declare is looked up on their search path. -/
theorem PluginRules.descends_plugins {r : PluginRules} (ht : r.tree.IsWellFormed) (hw : r.tree.workDir.Descends)
    (hs : r.search.Descends) : r.plugins.Descends :=
  fun _ _ h _ hi file hfile => SearchPath.descends_of_locate ht hw hs ((of_mem_implicitImports h hi).2 file hfile)

/-- An item of a walk that has no parent step. -/
def WalkItem.Descends : WalkItem → Prop
  | .single p _ | .path p _ => p.Descends
  | .pattern text => ∀ p, FilePattern.read text = .ok p → p.Descends

/-- An operation that is given no path with a parent step. -/
def Operation.Descends : Operation → Prop
  | addEntry path => path.Descends
  | walk item => item.Descends
  | seed includes base => ∀ item ∈ (seed includes base).items, item.Descends
  | consider _ edges => ∀ edge ∈ edges, edge.Descends
  | recurse r _ => r.file.Descends
  | pass | run _ | decide _ => True

/-- An action that asks for no file with a parent step. -/
def Action.Descends : Action → Prop
  | recursed r _ | fetched r => r.file.Descends
  | entered path => path.Descends
  | _ => True

namespace Engine

variable {e : Engine (List Identity)} {p : SearchPath} {s s' : Session (List Identity)}

/-- An engine over sources all of whose directories are written without parent steps. -/
structure Descends (e : Engine (List Identity)) (p : SearchPath) : Prop where
  builder : e.builder = .ofSources p e.tree
  tree : e.tree.IsWellFormed
  workDir : e.tree.workDir.Descends
  search : p.Descends
  plugins : e.policy.plugins.Descends

/-- What holds of a session that was given no path with a parent step. -/
structure Descended (e : Engine (List Identity)) (s : Session (List Identity)) : Prop where
  remembers : e.Remembers s
  kept : ∀ m ∈ s.cache.modules, m.file.Descends
  pending : ∀ m ∈ s.pending, ∀ edge ∈ m.uses, edge.Descends
  nodup : (s.cache.modules.map ModuleRecord.identity).Nodup

theorem Descended.fresh (e : Engine (List Identity)) (x : List Identity) : e.Descended (.fresh x) where
  remembers := .of_nil rfl
  kept _ hm := nomatch hm
  pending _ hm := nomatch hm
  nodup := List.nodup_nil

/-! ## Actions -/

theorem Descends.ofPath (he : e.Descends p) {path : Path} (h : path.Descends) :
    (ModuleFile.ofPath e.tree.workDir path).Descends :=
  ModuleFile.descends_ofPath he.workDir he.tree.isAbsolute h

/-- The build that an action leads to is for a file like those that the action asks for. -/
theorem Descends.of_build? (he : e.Descends p) {a : Action} {r : BuildRequest} (ha : a.Descends)
    (h : a.build? e = some r) : r.file.Descends := by
  cases a with
  | recursed | fetched =>
    cases h
    exact ha
  | entered path =>
    cases h
    exact he.ofPath ha
  | _ => cases h

/-- What the builder gives is written like the file that it is asked for, and so are its imports. -/
theorem Descends.of_build (he : e.Descends p) {r : BuildRequest} {x : List Identity} {o : BuildOutcome}
    (hr : r.file.Descends) (h : (e.builder.build r x).1.result = .ok (some o)) :
    o.record.file.Descends ∧ ∀ edge ∈ o.uses, edge.Descends := by
  rw [he.builder] at h
  obtain ⟨hrecord, huses⟩ := Builder.given_of_ofSources h
  refine ⟨hrecord ▸ BuildRequest.descends_target he.tree he.workDir hr, ?_⟩
  rcases huses with ⟨_, hnone, _⟩ | ⟨_, hyields, _⟩
  · rw [hnone]
    exact fun _ hedge => nomatch hedge
  · exact BuildRequest.descends_of_yields he.tree he.workDir hr he.search hyields

/-- A session in which everything descends stays like that as long as only such files are asked for. -/
theorem Descended.move (he : e.Descends p) (h : e.Descended s) {a : Action} (ha : a.Descends) (hm : Move e a s s') :
    e.Descended s' := by
  rcases hm.same_or_brings with ⟨hcache, hpending, _⟩ | ⟨r, hbuild, o, m, ho, _, hof, hcache, hpending⟩
  · exact ⟨h.remembers.move hm, hcache ▸ h.kept, fun m hmem => h.pending m (hpending hmem), hm.nodup_kept h.nodup⟩
  · obtain ⟨hfile, huses⟩ := he.of_build (he.of_build? ha hbuild) ho
    have hm' : m.file = o.record.file := by rcases hof with rfl | rfl <;> rfl
    refine ⟨h.remembers.move hm, fun k hk => ?_, fun k hk => ?_, hm.nodup_kept h.nodup⟩
    · rw [hcache] at hk
      rcases Cache.mem_add hk with hk | ⟨rfl, _⟩
      · exact h.kept k hk
      · exact hm' ▸ hfile
    · rcases List.mem_append.1 (hpending hk) with hk | hk
      · exact h.pending k hk
      · rw [List.mem_singleton.1 hk]
        exact huses

theorem Descended.moves (he : e.Descends p) (h : e.Descended s) (hm : Moves e Action.Descends s s') : e.Descended s' :=
  hm.keeps (fun _ _ _ ha hm h => h.move he ha hm) h

/-! ## Walks -/

/-- What is left below a package is written like the file of the package. -/
theorem Registered.descends (ht : e.tree.IsWellFormed) {m : ModuleRecord} {children : List WalkItem}
    (hm : m.file.Descends) (h : e.Registered m children) : ∀ child ∈ children, child.Descends := by
  intro child hmem
  rcases h with ⟨_, rfl⟩ | ⟨_, names, hl, rfl⟩
  · cases hmem
  · obtain ⟨name, hname, rfl⟩ := List.mem_map.1 hmem
    obtain ⟨hstep, hne⟩ := (ht.names_of_list hl).2 name (List.mem_filter.1 hname).1
    exact hm.identity.child (Path.descends_of_isStep hstep hne)

/-- What stands in a directory descends if the directory does. -/
theorem descends_of_opened (ht : e.tree.IsWellFormed) {path : Path} {package : Option ModuleName}
    {children : List WalkItem} (hpath : path.Descends) (h : e.tree.opened path package = .ok children) :
    ∀ child ∈ children, child.Descends := by
  intro child hmem
  rcases FileTree.opened_eq_ok h with ⟨_, rfl⟩ | rfl | ⟨names, hl, rfl⟩
  · rw [List.mem_singleton.1 hmem]
    exact hpath
  · cases hmem
  · obtain ⟨name, hname, rfl⟩ := List.mem_map.1 hmem
    obtain ⟨hstep, hne⟩ := (ht.names_of_list hl).2 name (List.mem_filter.1 hname).1
    exact hpath.child (Path.descends_of_isStep hstep hne)

/-- What matches a pattern that descends does so as well. -/
theorem descends_of_matched (ht : e.tree.IsWellFormed) {text : String} {children : List WalkItem}
    (hitem : (WalkItem.pattern text).Descends) (h : e.tree.matched text = .ok children) :
    ∀ child ∈ children, child.Descends := by
  intro child hmem
  obtain ⟨pattern, hread, hmatches⟩ := FileTree.matched_eq_ok h
  obtain ⟨path, hpath, _, rfl⟩ := hmatches child hmem
  exact FileTree.descends_of_mem_matching ht hread (hitem pattern hread) hpath

/-- Walking an item without parent steps asks for no file with one, and leaves no item with one. -/
theorem expand_descends (he : e.Descends p) (hs : e.Descended s) {item : WalkItem} (hitem : item.Descends) :
    Leads e Action.Descends (e.expand item) s fun children _ => ∀ child ∈ children, child.Descends := by
  cases item with
  | single path package =>
    have hpath : path.Descends := hitem
    have hvisits : ∀ a, Action.Visits e (e.tree.query? path package) a → a.Descends := by
      intro a ha
      cases a with
      | fetched r =>
        obtain ⟨q, _, hq, ⟨_, hfile, _⟩, _⟩ := ha
        show r.file.Descends
        rw [hfile, FileTree.file_of_query? hq]
        exact he.ofPath hpath
      | recursed | entered => exact ha.elim
      | _ => trivial
    refine ((walkSingle_leads hs.remembers path package).mono hvisits).weaken fun children s' hm h => ?_
    cases h with
    | registered _ _ _ _ hk hm' =>
      exact hm'.descends he.tree ((hs.moves he hm).kept _ (List.mem_of_find?_eq_some hk))
    | _ => exact fun _ hmem => nomatch hmem
  | path path package =>
    exact (walkPath_leads path package trivial).weaken fun _ _ _ h => descends_of_opened he.tree hitem h
  | pattern text =>
    exact (walkPattern_leads text trivial).weaken fun _ _ _ h => descends_of_matched he.tree hitem h

/-! ## Operations -/

/-- Following the imports of a module asks for their files only. -/
theorem descends_of_follows (he : e.Descends p) {m : ModuleRecord} {edges : List ImportEdge}
    (hedges : ∀ edge ∈ edges, edge.Descends) {a : Action} (ha : Action.Follows e m (e.Asks m edges) a) : a.Descends := by
  cases a with
  | recursed r signalled =>
    obtain ⟨_, q, _, hq, ⟨_, hasked, _⟩, _⟩ := ha
    show r.file.Descends
    rw [hasked]
    rcases hq.exists_file with ⟨edge, hedge, hfile, _⟩ | ⟨imports, hi, i, hmem, hfile, _⟩
    · exact hedges edge hedge q.file hfile
    · exact he.plugins m imports hi i hmem q.file hfile
  | fetched | entered => exact ha.elim
  | _ => trivial

/-- A session that is given no path with a parent step asks for none. -/
theorem confines_descends (he : e.Descends p) : e.Confines Action.Descends WalkItem.Descends e.Descended where
  remembers _ hs := hs.remembers
  move _ _ _ ha hm hs := hs.move he ha hm
  quiet a ha := by
    cases a with
    | remarked | rooted | used | decided => trivial
    | _ => cases ha
  drained := trivial
  expand _ _ hs hitem := expand_descends he hs hitem
  pending _ hs m hm _ ha := descends_of_follows he (hs.pending m hm) ha

end Engine

/-- Walks of these paths, one after the other. -/
def Operation.walks (paths : List String) : List Operation :=
  paths.map fun path => .walk (.path ⟨path⟩ none)

theorem Operation.descends_walks {paths : List String} (h : ∀ path ∈ paths, Path.Descends ⟨path⟩) :
    ∀ op ∈ walks paths, op.Descends := by
  intro op hop
  obtain ⟨path, hpath, rfl⟩ := List.mem_map.1 hop
  exact h path hpath

section Operations

variable {e : Engine (List Identity)} {p : SearchPath} {s : Session (List Identity)}

/-- An operation that is given only what descends keeps to it. -/
theorem Operation.Descends.within (he : e.Descends p) {op : Operation} (hop : op.Descends) :
    op.Within e Action.Descends WalkItem.Descends := by
  cases op with
  | consider m edges => exact fun _ ha => Engine.descends_of_follows he hop ha
  | pass | run | decide => trivial
  | _ => exact hop

/-- All files that such operations leave in the session are written from the root without parent steps. -/
theorem Engine.Descended.after (he : e.Descends p) {ops : List Operation} (hops : ∀ op ∈ ops, op.Descends)
    (hs : e.Descended s) : e.Descended (e.after ops s) :=
  (confines_descends he).after (fun op hop => (hops op hop).within he) hs

/-! ## Sources that are walked -/

/-- A source that is new and can be read is brought in by a walk of its path, and nothing else is. -/
theorem Engine.HasIncluded.exists_walk_source (he : e.builder = .ofSources p e.tree) (hpolicy : e.policy.IsPermissive)
    {ms : List ModuleRecord} (h : e.HasIncluded ms s) {path f : Path} {bare text : String}
    {statements : List ImportStatement} (hpath : e.tree.isFile path = true)
    (hfile : ModuleFile.ofPath e.tree.workDir path = ⟨f⟩) (hat : e.tree.moduleAt? f = some (bare, .source))
    (hname : ModuleName.inPackage bare none ≠ .main) (hdir : e.tree.isDir f = false) (hinit : f.fileName ≠ some initEntry)
    (htext : e.tree.readText f = .ok text) (hstatements : Python.readImports text = .ok statements)
    (hnew : (ModuleRecord.ofSource f ⟨bare⟩).identity ∉ ms.map ModuleRecord.identity) :
    ∃ s', ends (e.walk (.path path none)) s = (.ok (), s') ∧ e.HasIncluded (ms ++ [.ofSource f ⟨bare⟩]) s' := by
  obtain ⟨s₀, ⟨events, diagnostics, rfl⟩, hwalk⟩ := Engine.exists_walk_path none (by rw [hpath, Bool.true_or]) s
  have h₀ : e.HasIncluded ms { s with events, diagnostics } := h.remark events diagnostics s.warned
  obtain ⟨r, s₁, hrid, hbuild, h₁, hsingle⟩ := h₀.exists_fetched hpolicy hfile hat hname
  have htarget := BuildRequest.target_of_isDir_eq_false (n := ⟨bare⟩) hdir hinit
  rw [← show r.toBuild = ⟨⟨bare⟩, ⟨f⟩, .source, false, true⟩ from hbuild] at htarget
  have hid : (r.toBuild.target e.tree).1.identity = r.identity := by
    rw [htarget, hrid]
    rfl
  obtain ⟨s₂, hfetch, h₂⟩ := h₁.exists_fetch he hpolicy.plugins hid (by rw [hrid]; exact hnew) <| by
    intro source hsource
    rw [htarget] at hsource
    cases hsource
    exact ⟨text, statements, htext, hstatements⟩
  rw [htarget] at hfetch h₂
  obtain ⟨s₃, hregister, h₃⟩ := h₂.exists_registerIncluded_module List.mem_concat_self rfl rfl
    (HasIncluded.not_mem_roots hnew)
  refine ⟨s₃, ?_, ?_⟩
  · rw [hwalk, show ends (e.walkStack (e.tree.size + 2 + 1) [.single path none]) _ = _ from
      ends_bind_ok ((hsingle _ _ hfetch).trans hregister) _]
    rfl
  · rw [HasIncluded, List.filter_append]
    exact h₃

/-- Two paths are walked one after the other. -/
theorem Engine.after_walks (e : Engine (List Identity)) (first second : String) (s : Session (List Identity)) :
    e.after (Operation.walks [first, second]) s =
      e.next (e.next s (.walk (.path ⟨first⟩ none))) (.walk (.path ⟨second⟩ none)) := rfl

/-- What was brought in stays. -/
theorem Engine.HasIncluded.mem_next {ms : List ModuleRecord} {m : ModuleRecord} (h : e.HasIncluded ms s) (hm : m ∈ ms)
    (op : Operation) : m ∈ (e.next s op).cache.modules :=
  List.mem_of_find?_eq_some ((Engine.moves_next h.remembers op).find?_mono (h.find?_eq_some hm))

end Operations

/-! ## One file, one module -/

/-- Paths without parent steps that lead to one place are one module file, in whichever way they are written. So in a
session that is given no path with a parent step, modules of one name that stand for one file are the same module. -/
theorem unique_of_locate {e : Engine (List Identity)} {p : SearchPath} (he : e.Descends p) {ops : List Operation}
    (hops : ∀ op ∈ ops, op.Descends) (x : List Identity) :
    (∀ path path' place, path.Descends → path'.Descends → e.tree.locate path = .ok place →
      e.tree.locate path' = .ok place →
        (ModuleFile.ofPath e.tree.workDir path).place = (ModuleFile.ofPath e.tree.workDir path').place) ∧
      ∀ m ∈ (e.after ops (.fresh x)).cache.modules, ∀ m' ∈ (e.after ops (.fresh x)).cache.modules, m.name = m'.name →
        ∀ place, e.tree.locate m.file.path = .ok place → e.tree.locate m'.file.path = .ok place → m = m' := by
  refine ⟨fun path path' place => FileTree.place_eq_of_locate he.tree he.workDir, fun m hm m' hm' hname place h h' => ?_⟩
  have hs := (Engine.Descended.fresh e x).after he hops
  have hcomp : ∀ k ∈ (e.after ops (.fresh x)).cache.modules, e.tree.locate k.file.path = .ok place →
      k.file.path.components = .root :: place.map .name := by
    intro k hk hplace
    have hne := FileTree.text_ne_of_locate hplace
    have hfile := hs.kept k hk
    rw [← FileTree.components_of_locate he.tree he.workDir hfile.path hplace]
    exact ((Path.absolute_spec he.tree.isAbsolute hne).2 (hfile.isAbsolute hne)).symm
  have hplace : m.file.place = m'.file.place := ModuleFile.place_congr ((hcomp m hm h).trans (hcomp m' hm' h').symm)
  exact List.inj_on_of_nodup_map hs.nodup hm hm' (congrArg₂ Identity.mk hname hplace)

namespace Engine

theorem descends_smallPackage : (overSources .smallPackage).Descends {} where
  builder := rfl
  tree := FileTree.isWellFormed_packageOf (by decide)
  workDir := by decide
  search _ h := nomatch h
  plugins _ _ h i hi := by cases h; cases hi

/-- The module of this package is brought in by a walk of a path to it. -/
theorem exists_walk_smallPackage {ms : List ModuleRecord} {s : Session (List Identity)}
    (h : (overSources .smallPackage).HasIncluded ms s) (path f : Path) (hpath : FileTree.smallPackage.isFile path = true)
    (hfile : ModuleFile.ofPath FileTree.smallPackage.workDir path = ⟨f⟩)
    (hat : FileTree.smallPackage.moduleAt? f = some ("a", .source))
    (hdir : FileTree.smallPackage.isDir f = false) (hinit : f.fileName ≠ some initEntry)
    (htext : FileTree.smallPackage.readText f = .ok "")
    (hnew : (ModuleRecord.ofSource f ⟨"a"⟩).identity ∉ ms.map ModuleRecord.identity) :
    (overSources .smallPackage).HasIncluded (ms ++ [.ofSource f ⟨"a"⟩])
      ((overSources .smallPackage).next s (.walk (.path path none))) := by
  obtain ⟨s', hs', h'⟩ := h.exists_walk_source (p := {}) rfl ⟨rfl, rfl, rfl, rfl⟩ hpath hfile hat (by decide) hdir hinit
    htext (show Python.readImports "" = .ok [] by with_unfolding_all rfl) hnew
  have hnext : (overSources .smallPackage).next s (.walk (.path path none)) = s' := congrArg Prod.snd hs'
  rwa [hnext]

/-- After a walk of the path of the module it is kept. -/
theorem hasIncluded_smallPackage : (overSources .smallPackage).HasIncluded [.ofSource ⟨"/w/pkg/a.py"⟩ ⟨"a"⟩]
    ((overSources .smallPackage).next (.fresh []) (.walk (.path ⟨"pkg/a.py"⟩ none))) :=
  exists_walk_smallPackage (HasBuilt.fresh _) _ _ (by decide +kernel) (by decide +kernel) (by decide +kernel)
    (by decide +kernel) (by decide +kernel) (by decide +kernel) List.not_mem_nil

end Engine

/-- A module that is walked by two paths without parent steps is kept once. -/
theorem unique_of_locate_smallPackage :
    let e := Engine.overSources .smallPackage
    let s := e.after (Operation.walks ["pkg/a.py", "/w//pkg/./a.py"]) (.fresh [])
    (ModuleFile.ofPath e.tree.workDir ⟨"pkg/a.py"⟩).place = (ModuleFile.ofPath e.tree.workDir ⟨"/w//pkg/./a.py"⟩).place ∧
      .ofSource ⟨"/w/pkg/a.py"⟩ ⟨"a"⟩ ∈ s.cache.modules ∧ ∀ m ∈ s.cache.modules, m.name = ⟨"a"⟩ →
        e.tree.locate m.file.path = .ok ["w", "pkg", "a.py"] → m = .ofSource ⟨"/w/pkg/a.py"⟩ ⟨"a"⟩ := by
  intro e s
  have hdescend : ∀ path ∈ ["pkg/a.py", "/w//pkg/./a.py"], Path.Descends ⟨path⟩ := by decide
  obtain ⟨hfiles, hmodules⟩ := unique_of_locate Engine.descends_smallPackage (Operation.descends_walks hdescend) []
  have hkept := Engine.hasIncluded_smallPackage.mem_next (List.mem_singleton_self _)
    (.walk (.path ⟨"/w//pkg/./a.py"⟩ none))
  rw [← Engine.after_walks] at hkept
  have hs : s = (Engine.overSources .smallPackage).after (Operation.walks ["pkg/a.py", "/w//pkg/./a.py"]) (.fresh []) :=
    rfl
  clear_value s
  rw [← hs] at hmodules hkept
  refine ⟨?_, hkept, fun m hm hname hplace => ?_⟩
  · exact hfiles ⟨"pkg/a.py"⟩ ⟨"/w//pkg/./a.py"⟩ ["w", "pkg", "a.py"] (by decide) (by decide) (by decide +kernel)
      (by decide +kernel)
  · exact hmodules m hm _ hkept hname _ hplace (by decide +kernel)

/-- A path that goes up on the way leads to the same file as one that does not, and is another module file. A session that
walks both keeps two modules of one name that stand for one file. -/
theorem Engine.detour_keeps_two :
    let e := overSources .smallPackage
    let s := e.after (Operation.walks ["pkg/a.py", "pkg/../pkg/a.py"]) (.fresh [])
    (e.tree.locate ⟨"pkg/a.py"⟩ = .ok ["w", "pkg", "a.py"] ∧
        e.tree.locate ⟨"pkg/../pkg/a.py"⟩ = .ok ["w", "pkg", "a.py"] ∧
        (ModuleFile.ofPath e.tree.workDir ⟨"pkg/a.py"⟩).place ≠
          (ModuleFile.ofPath e.tree.workDir ⟨"pkg/../pkg/a.py"⟩).place) ∧
      ∃ m ∈ s.cache.modules, ∃ m' ∈ s.cache.modules, m ≠ m' ∧ m.name = m'.name ∧
        e.tree.locate m.file.path = .ok ["w", "pkg", "a.py"] ∧
        e.tree.locate m'.file.path = .ok ["w", "pkg", "a.py"] := by
  intro e s
  have hboth := exists_walk_smallPackage hasIncluded_smallPackage ⟨"pkg/../pkg/a.py"⟩ ⟨"/w/pkg/../pkg/a.py"⟩
    (by decide +kernel) (by decide +kernel) (by decide +kernel) (by decide +kernel) (by decide +kernel)
    (by decide +kernel) (by decide +kernel)
  rw [← after_walks] at hboth
  have hmodules := hboth.modules
  have hs : s = (overSources .smallPackage).after (Operation.walks ["pkg/a.py", "pkg/../pkg/a.py"]) (.fresh []) := rfl
  clear_value s
  rw [← hs] at hmodules
  refine ⟨⟨by decide +kernel, by decide +kernel, by decide +kernel⟩, .ofSource ⟨"/w/pkg/a.py"⟩ ⟨"a"⟩, ?_,
    .ofSource ⟨"/w/pkg/../pkg/a.py"⟩ ⟨"a"⟩, ?_, by decide, rfl, by decide +kernel, by decide +kernel⟩
  · rw [hmodules]
    exact List.mem_cons_self
  · rw [hmodules]
    exact List.mem_cons_of_mem _ List.mem_cons_self

end ImportClosure
