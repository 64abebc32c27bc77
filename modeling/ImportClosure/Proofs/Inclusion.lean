import ImportClosure.Proofs.Included
import ImportClosure.Proofs.PackageTree
import ImportClosure.Proofs.Registry
import ImportClosure.Proofs.Walking

/-!
# Inclusion, one item after the other

What a walk of explicit paths does to a session over the sources of a tree, when nothing speaks against it. A session is
told by what has been brought in so far and by the roots (`Engine.HasBuilt`). Each step of a walk comes to a value and adds
what it should: fetching a module brings it in, registering it makes it a root and leaves the members of a package.
-/

namespace ImportClosure

open Step

/-! ## Policies -/

/-- A policy in which nothing speaks against what is asked for by its path. -/
structure Policy.IsPermissive (p : Policy) : Prop where
  plugins : p.plugins = {}
  profile : p.profile = {}
  nofollowTo : p.nofollowTo = []
  packageMode : p.options.packageMode = none

/-- Such a policy includes every source that is asked for by its path, but for the main module. -/
theorem Policy.IsPermissive.includes {σ : Type} {e : Engine σ} (h : e.policy.IsPermissive) {q : Query}
    (hname : q.name ≠ .main) (hkind : q.kind = .source) (hx : q.explicit = true) : e.Includes q := by
  rintro d ⟨q', hk, rfl⟩
  have hname' : q'.name ≠ .main := by rwa [show q'.name = q.name from congrArg QueryKey.name hk]
  have hkind' : q'.kind = .source := (congrArg QueryKey.kind hk).trans hkind
  have hx' : q'.explicit = true := (congrArg QueryKey.explicit hk).trans hx
  have hrules : e.policy.decide q' = (e.policy.alwaysFollowRule q').getD (.included .explicitPath) := by
    unfold Policy.decide Policy.rules
    simp [mainRule, pluginRule, extensionRule, profileRule, neverFollowRule, explicitRule, List.findSome?_cons,
      ModuleName.isMain, FollowOptions.inPackageMode, NamePatterns.firstHit, hname', hkind', hx',
      h.plugins, h.profile, h.nofollowTo, h.packageMode]
    cases e.policy.alwaysFollowRule q' <;> rfl
  rw [hrules, alwaysFollowRule]
  cases e.policy.followTo.firstHit q'.name with
  | none => exact ⟨_, rfl⟩
  | some hit => exact ⟨_, rfl⟩

/-- A child of a package is not the main module. -/
theorem ModuleName.child_ne_main (n : ModuleName) (x : String) : n.child x ≠ .main := by
  intro h
  have hdot : '.' ∈ (n.child x).text.toList := by simp [ModuleName.child]
  rw [h] at hdot
  exact absurd hdot (by decide)

/-! ## Members -/

namespace FileTree

variable {t : FileTree} {dir : Path} {n : ModuleName} {x : String} {names : List String}

/-- What a walk takes from the directory of a package are subpackages and what is named like a source. -/
theorem isMember_iff (hd : dir.isAbsolute = true) (hn : Path.IsStep x) : Engine.isMember t dir x = true ↔
    t.IsSubpackage dir x ∨ x ≠ initEntry ∧ Text.endsWith x sourceSuffix = true := by
  have hcache : Text.endsWith x sourceSuffix = true → x ≠ bytecodeCacheDir := by
    rintro hs rfl
    exact absurd hs (by decide)
  simp only [Engine.isMember, Bool.and_eq_true, bne_iff_ne, Bool.or_eq_true, Bool.not_eq_true',
    ← Path.child_append_sourceSuffix hd hn]
  constructor
  · rintro ⟨⟨hinit, hne⟩, ⟨hp, hsource⟩ | hs⟩
    · exact Or.inl ⟨hinit, hne, hp, hsource⟩
    · exact Or.inr ⟨hinit, hs⟩
  · rintro (h | ⟨hinit, hs⟩)
    · exact ⟨⟨h.ne_initEntry, h.ne_cache⟩, Or.inl ⟨h.isPackage, h.unshadowed⟩⟩
    · exact ⟨⟨hinit, hcache hs⟩, Or.inr hs⟩

/-- The names in the directory of a package that are left to be walked. -/
def membersIn (t : FileTree) (dir : Path) (n : ModuleName) (names : List String) : List WalkItem :=
  (names.filter (Engine.isMember t dir)).map fun name => .single (dir.child name) (some n)

/-- A member at the front of the names is walked first. -/
theorem membersIn_cons (h : Engine.isMember t dir x = true) :
    t.membersIn dir n (x :: names) = .single (dir.child x) (some n) :: t.membersIn dir n names := by
  rw [membersIn, List.filter_cons_of_pos h, List.map_cons, membersIn]

/-- A name that is no member is not walked. -/
theorem membersIn_cons_of_not (h : ¬ Engine.isMember t dir x = true) :
    t.membersIn dir n (x :: names) = t.membersIn dir n names := by
  rw [membersIn, List.filter_cons_of_neg h, membersIn]

/-- Names in a directory are written without the slash behind it. -/
theorem membersIn_bare {w : Path} (hd : dir.IsCanonical w) (hn : ∀ x ∈ names, Path.IsStep x) :
    t.membersIn dir.bare n names = t.membersIn dir n names := by
  have hmember : names.filter (Engine.isMember t dir.bare) = names.filter (Engine.isMember t dir) := by
    refine List.filter_congr fun x hx => ?_
    rw [Engine.isMember, hd.child_bare (hn x hx), ← Engine.isMember]
  rw [membersIn, membersIn, hmember]
  refine List.map_congr_left fun x hx => ?_
  rw [hd.child_bare (hn x (List.mem_of_mem_filter hx))]

/-- How many steps a walk of names in the directory of a package may take. -/
def stepsFor (t : FileTree) (dir : Path) (names : List String) : Nat :=
  ((names.filter (Engine.isMember t dir)).map fun x => 1 + t.below (dir.child x).components).sum

/-- The steps for a member are one for itself, those below it, and those for the other names. -/
theorem stepsFor_cons (h : Engine.isMember t dir x = true) :
    t.stepsFor dir (x :: names) = 1 + t.below (dir.child x).components + t.stepsFor dir names := by
  rw [stepsFor, List.filter_cons_of_pos h, List.map_cons, List.sum_cons, stepsFor]

/-- A name that is no member takes no step. -/
theorem stepsFor_cons_of_not (h : ¬ Engine.isMember t dir x = true) :
    t.stepsFor dir (x :: names) = t.stepsFor dir names := by
  rw [stepsFor, List.filter_cons_of_neg h, stepsFor]

end FileTree

/-! ## What a session has brought in -/

/-- A session has brought in these modules, in this order and each of them once, and has made these the roots. -/
structure Engine.HasBuilt (e : Engine (List Identity)) (ms roots : List ModuleRecord) (s : Session (List Identity)) :
    Prop where
  modules : s.cache.modules = ms
  nodup : (ms.map ModuleRecord.identity).Nodup
  builder : s.builder = (ms.map ModuleRecord.identity).reverse
  newBuilds : s.newBuilds = (ms.map ModuleRecord.identity).reverse
  roots_eq : s.registry.roots = roots
  remembers : e.Remembers s

namespace Engine.HasBuilt

variable {e : Engine (List Identity)} {p : SearchPath} {ms roots : List ModuleRecord} {s s' : Session (List Identity)}
  {m : ModuleRecord} {r : RecursionRequest}

/-- In a session in which nothing has happened nothing is built. -/
theorem fresh (e : Engine (List Identity)) : e.HasBuilt [] [] (.fresh []) :=
  ⟨rfl, List.nodup_nil, rfl, rfl, rfl, .of_nil rfl⟩

/-- What is noted or decided changes neither the modules nor the roots. -/
theorem move (h : e.HasBuilt ms roots s) {a : Action} (hquiet : a.isQuiet = true) (hspares : a.sparesRoots = true)
    (hm : Move e a s s') : e.HasBuilt ms roots s' where
  modules := by rw [(hm.alike hquiet).cache, h.modules]
  nodup := h.nodup
  builder := by rw [(hm.alike hquiet).builder, h.builder]
  newBuilds := by rw [Session.newBuilds, (hm.alike hquiet).history, ← Session.newBuilds, h.newBuilds]
  roots_eq := by rw [hm.roots_eq hspares, h.roots_eq]
  remembers := h.remembers.move hm

/-- What is logged builds nothing. -/
theorem remark (h : e.HasBuilt ms roots s) (events : List Event) (diagnostics : List Diagnostic)
    (warned : List ModuleName) : e.HasBuilt ms roots { s with events, diagnostics, warned } :=
  h.move (a := .remarked) rfl rfl ⟨events, diagnostics, warned, rfl⟩

/-- Tracing succeeds and builds nothing. -/
theorem exists_trace (h : e.HasBuilt ms roots s) (event : Event) :
    ∃ s', ends (e.trace event) s = (.ok (), s') ∧ e.HasBuilt ms roots s' := by
  unfold trace
  split
  · exact ⟨_, rfl, h.remark (event :: s.events) s.diagnostics s.warned⟩
  · exact ⟨s, rfl, h⟩

/-- A module that was not brought in is not kept. -/
theorem find?_eq_none (h : e.HasBuilt ms roots s) {i : Identity} (hi : i ∉ ms.map ModuleRecord.identity) :
    s.cache.find? i = none := by
  rw [Cache.find?, h.modules, List.find?_eq_none]
  intro m hm hof
  exact hi (List.mem_map.2 ⟨m, hm, (ModuleRecord.isOf_iff m i).1 hof⟩)

/-- A module that is new and can be built is brought in when it is fetched. -/
theorem exists_fetch (he : e.builder = .ofSources p e.tree) (hplugins : e.policy.plugins = {})
    (h : e.HasBuilt ms roots s) (hid : (r.toBuild.target e.tree).1.identity = r.identity)
    (hnew : r.identity ∉ ms.map ModuleRecord.identity)
    (hread : ∀ path ∈ (r.toBuild.target e.tree).2, e.tree.Parses path) :
    ∃ s', ends (e.fetch r) s = (.ok (some (r.toBuild.target e.tree).1), s') ∧
      e.HasBuilt (ms ++ [(r.toBuild.target e.tree).1]) roots s' := by
  have hnone := h.find?_eq_none hnew
  have hx : (r.toBuild.target e.tree).1.identity ∉ s.builder := by
    rw [h.builder, List.mem_reverse, hid]
    exact hnew
  obtain ⟨o, ho⟩ := Builder.exists_build_of_reads (p := p) hx hread
  obtain ⟨hrecord, hgiven⟩ := Builder.given_of_ofSources ho
  rcases hgiven with ⟨hknown, _⟩ | ⟨_, _, hnewly, hbuilder⟩
  · rw [hrecord] at hknown
    exact absurd hknown hx
  rw [← he] at ho hbuilder
  obtain ⟨result, s₁, hc, hends⟩ := e.fetched r s
  cases hc with
  | known hk => cases hk.symm.trans hnone
  | refused _ hp => simp [hplugins] at hp
  | failed _ _ hb | passedOver _ _ hb =>
    rw [ho] at hb
    cases hb
  | @built o' events _ hb =>
    cases ho.symm.trans hb
    have hadd : s.cache.add o.record = (o.record, ⟨ms ++ [o.record]⟩) := by
      unfold Cache.add
      rw [show Handle.identity o.record = r.identity from (congrArg _ hrecord).trans hid, hnone, h.modules]
    rw [hadd] at hends
    rw [hends, ← hrecord]
    have hids : (ms ++ [o.record]).map ModuleRecord.identity = ms.map ModuleRecord.identity ++ [o.record.identity] := by
      rw [List.map_append, List.map_singleton]
    refine ⟨_, rfl, ?_, ?_, ?_, ?_, h.roots_eq, h.remembers⟩
    · show (s.cache.add o.record).2.modules = _
      rw [hadd]
    · rw [hids, hrecord, hid]
      exact List.nodup_append.2 ⟨h.nodup, List.nodup_singleton _, by simpa using hnew⟩
    · rw [hids, List.reverse_concat, ← h.builder]
      exact hbuilder
    · rw [hids, List.reverse_concat, ← h.newBuilds]
      simp [Session.newBuilds, Session.reach, Session.accepted, Session.built, Milestone.newBuild?, List.filterMap_cons,
        hnewly]

/-- A module that is new and whose source cannot be read or parsed is passed over, and nothing else happens. -/
theorem exists_fetch_none (he : e.builder = .ofSources p e.tree) (hplugins : e.policy.plugins = {})
    (h : e.HasBuilt ms roots s) (hid : (r.toBuild.target e.tree).1.identity = r.identity)
    (hnew : r.identity ∉ ms.map ModuleRecord.identity) {path : Path} (hs : (r.toBuild.target e.tree).2 = some path)
    (hread : ¬ e.tree.Parses path) : ∃ s', ends (e.fetch r) s = (.ok none, s') ∧ e.HasBuilt ms roots s' := by
  have hnone := h.find?_eq_none hnew
  have hx : (r.toBuild.target e.tree).1.identity ∉ s.builder := by
    rw [h.builder, List.mem_reverse, hid]
    exact hnew
  obtain ⟨ho, hbuilder⟩ := Builder.build_of_not_parses (p := p) hx hs hread rfl
  rw [← he] at ho hbuilder
  obtain ⟨result, s₁, hc, hends⟩ := e.fetched r s
  cases hc with
  | known hk => cases hk.symm.trans hnone
  | refused _ hp => simp [hplugins] at hp
  | failed _ _ hb | built _ _ hb =>
    rw [ho] at hb
    cases hb
  | passedOver events _ hb =>
    exact ⟨_, hends, h.modules, h.nodup, hbuilder.trans h.builder, h.newBuilds, h.roots_eq, h.remembers⟩

/-- Making a module that is no root yet a root. -/
theorem addRoot (h : e.HasBuilt ms roots s) (hm : m.identity ∉ roots.map ModuleRecord.identity) :
    e.HasBuilt ms (roots ++ [m]) (s.addRoot m) where
  modules := h.modules
  nodup := h.nodup
  builder := h.builder
  newBuilds := h.newBuilds
  roots_eq := by
    have hroot : s.registry.isRoot m.identity = false := by
      rw [← Bool.not_eq_true, Registry.isRoot_iff, h.roots_eq]
      rintro ⟨root, hmem, hid⟩
      exact hm (List.mem_map.2 ⟨root, hmem, hid⟩)
    rw [show (s.addRoot m).registry = s.registry.addRoot m from rfl, Registry.roots_addRoot, hroot, h.roots_eq]
    rfl
  remembers := h.remembers

/-- A package becomes a root unless it is backed by its directory alone; its members are in the directory that its file
stands for. -/
theorem exists_openPackage (h : e.HasBuilt ms roots s) (hp : m.isPackage = true)
    (hm : m.identity ∉ roots.map ModuleRecord.identity) : ∃ s', ends (openPackage m) s = (.ok m.file.identity, s') ∧
      e.HasBuilt ms (roots ++ [m].filter fun m => !m.isNamespacePackage) s' := by
  unfold openPackage
  cases hns : m.isNamespacePackage with
  | true =>
    have hi : m.file.isInitEntry = false := by simpa [ModuleRecord.isNamespacePackage, hp] using hns
    refine ⟨s, ?_, by simpa [hns] using h⟩
    simp [ModuleFile.identity, hi]
  | false =>
    have hi : m.file.isInitEntry = true := by simpa [ModuleRecord.isNamespacePackage, hp] using hns
    obtain ⟨dir, hdir⟩ := Path.exists_parent? (by simpa [ModuleFile.isInitEntry] using hi)
    refine ⟨s.addRoot m, ?_, by simpa [hns] using h.addRoot hm⟩
    simp only [Bool.false_eq_true, if_false, ends_bind_ok (ends_update _ s), hdir]
    simp [ModuleFile.identity, hi, hdir]

/-- A module that was brought in is kept. -/
theorem find?_eq_some (h : e.HasBuilt ms roots s) (hm : m ∈ ms) : s.cache.find? m.identity = some m := by
  obtain ⟨kept, hkept⟩ : ∃ kept, s.cache.find? m.identity = some kept := by
    rw [← Option.isSome_iff_exists, Cache.find?, List.find?_isSome, h.modules]
    exact ⟨m, hm, (ModuleRecord.isOf_iff m _).2 rfl⟩
  have hmem : kept ∈ ms := by
    rw [← h.modules]
    exact List.mem_of_find?_eq_some hkept
  rw [hkept, List.inj_on_of_nodup_map h.nodup hmem hm (Cache.identity_of_find? hkept)]

/-- A package that was brought in leaves its members to be walked. -/
theorem exists_registerIncluded_package (h : e.HasBuilt ms roots s) (hmem : m ∈ ms) (hkind : m.kind = .source)
    (hp : m.isPackage = true) (hm : m.identity ∉ roots.map ModuleRecord.identity) {names : List String}
    (hl : e.tree.list m.file.identity = .ok names) :
    ∃ s', ends (e.registerIncluded m) s = (.ok (e.tree.membersIn m.file.identity m.name names), s') ∧
      e.HasBuilt ms (roots ++ [m].filter fun m => !m.isNamespacePackage) s' := by
  unfold registerIncluded
  obtain ⟨s₁, htrace, h₁⟩ := h.exists_trace (.moduleIncluded m)
  obtain ⟨s₂, hopen, h₂⟩ := h₁.exists_openPackage hp hm
  obtain ⟨s₃, htrace', h₃⟩ := h₂.exists_trace (.packageDirectory m.file.identity)
  have hnames : ends (e.namesIn m.file.identity) s₃ = (.ok names, s₃) := by
    rw [namesIn, hl]
    rfl
  have hkeep : ends (update fun s => (s.keep m).2) s₁ = (.ok (), s₁) := by
    rw [ends_update, keep_eq (h₁.find?_eq_some hmem)]
  have hno : ¬ m.kind = .extension := by simp [hkind]
  refine ⟨s₃, ?_, h₃⟩
  rw [ends_bind_ok htrace, ends_bind_ok hkeep, if_pos hp, if_neg hno]
  dsimp only
  rw [ends_bind_ok hopen, ends_bind_ok htrace', ends_bind_ok hnames]
  rfl

/-- A module that was brought in and is no package becomes a root. -/
theorem exists_registerIncluded_module (h : e.HasBuilt ms roots s) (hmem : m ∈ ms) (hkind : m.kind = .source)
    (hp : m.isPackage = false) (hm : m.identity ∉ roots.map ModuleRecord.identity) :
    ∃ s', ends (e.registerIncluded m) s = (.ok [], s') ∧ e.HasBuilt ms (roots ++ [m]) s' := by
  unfold registerIncluded
  obtain ⟨s₁, htrace, h₁⟩ := h.exists_trace (.moduleIncluded m)
  have hkeep : ends (update fun s => (s.keep m).2) s₁ = (.ok (), s₁) := by
    rw [ends_update, keep_eq (h₁.find?_eq_some hmem)]
  refine ⟨s₁.addRoot m, ?_, h₁.addRoot hm⟩
  rw [ends_bind_ok htrace, ends_bind_ok hkeep]
  simp [hp, hkind]
  rfl

/-! ## One item -/

/-- A real package directory stands for itself. -/
theorem exists_walkPath {dir : Path} {package : Option ModuleName} (h : e.HasBuilt ms roots s)
    (hdir : e.tree.isRealPackage dir = true) :
    ∃ s', ends (e.walkPath dir package) s = (.ok [.single dir package], s') ∧ e.HasBuilt ms roots s' := by
  unfold walkPath
  obtain ⟨s₁, htrace, h₁⟩ := h.exists_trace (.checkingPath dir package)
  refine ⟨s₁, ?_, h₁⟩
  rw [ends_bind_ok htrace, if_pos (by simp [hdir])]
  rfl

/-- A directory that is no package stands for entries in it. -/
theorem exists_walkPath_plain {dir : Path} {names : List String} (package : Option ModuleName)
    (h : e.HasBuilt ms roots s) (hreal : e.tree.isRealPackage dir = false) (hdir : e.tree.isDir dir = true)
    (hl : e.tree.list dir = .ok names) :
    ∃ s', ends (e.walkPath dir package) s =
        (.ok ((names.filter (isTopLevel e.tree dir)).map fun x => .single (dir.child x) none), s') ∧
      e.HasBuilt ms roots s' := by
  have hfile : e.tree.isFile dir = false := by
    rw [← Bool.not_eq_true]
    intro hfile
    rw [FileTree.isDir_of_isFile hfile] at hdir
    cases hdir
  have hnames : ∀ s, ends (e.namesIn dir) s = (.ok names, s) := by
    intro s
    rw [namesIn, hl]
    rfl
  obtain ⟨s₁, htrace, h₁⟩ := h.exists_trace (.checkingPath dir package)
  refine ⟨s₁, ?_, h₁⟩
  unfold walkPath
  rw [ends_bind_ok htrace, if_neg (by simp [hfile, hreal]), if_neg (by simp [hdir]), ends_bind_ok (hnames s₁)]
  rfl

section Items

variable {path q : Path} {package : Option ModuleName} {bare : String}

/-- Where there is no module nothing happens. -/
theorem exists_walkSingle_nothing (h : e.HasBuilt ms roots s)
    (hat : e.tree.moduleAt? (ModuleFile.ofPath e.tree.workDir path).path = none) :
    ∃ s', ends (e.walkSingle path package) s = (.ok [], s') ∧ e.HasBuilt ms roots s' := by
  unfold walkSingle
  obtain ⟨s₁, htrace, h₁⟩ := h.exists_trace (.checkingModule (.ofPath e.tree.workDir path) package)
  refine ⟨s₁, ?_, h₁⟩
  rw [ends_bind_ok htrace]
  simp only [hat]
  rfl

/-- A source that is there is fetched. -/
theorem exists_fetched (hpolicy : e.policy.IsPermissive) (h : e.HasBuilt ms roots s)
    (hfile : ModuleFile.ofPath e.tree.workDir path = ⟨q⟩) (hat : e.tree.moduleAt? q = some (bare, .source))
    (hname : ModuleName.inPackage bare package ≠ .main) :
    ∃ r s₁, r.identity = ⟨.inPackage bare package, ModuleFile.place ⟨q⟩⟩ ∧
      r.toBuild = ⟨.inPackage bare package, ⟨q⟩, .source, false, true⟩ ∧ e.HasBuilt ms roots s₁ ∧
      ∀ found s₂, ends (e.fetch r) s₁ = (.ok found, s₂) →
        ends (e.walkSingle path package) s = ends (found.elim (includeFailed q) e.registerIncluded) s₂ := by
  obtain ⟨s₁, htrace, h₁⟩ := h.exists_trace (.checkingModule ⟨q⟩ package)
  obtain ⟨d, s₂, hdecide⟩ := e.exists_ends_decide ⟨⟨q⟩, .inPackage bare package, .source, true⟩ s₁
  have h₂ : e.HasBuilt ms roots s₂ :=
    h₁.move (a := .decided ⟨⟨q⟩, .inPackage bare package, .source, true⟩) rfl rfl (congrArg Prod.snd hdecide).symm
  obtain ⟨reason, rfl⟩ := hpolicy.includes hname rfl rfl d (stands_of_decide h₁.remembers hdecide)
  refine ⟨⟨.inPackage bare package, ⟨q⟩, .source, none, none, reason.text⟩, s₂, rfl, rfl, h₂, fun found s₃ hfetch => ?_⟩
  unfold walkSingle
  rw [hfile, ends_bind_ok htrace]
  simp only [hat]
  have hreport : ends (e.reportExtension (.inPackage bare package) .source) s₁ = (.ok (), s₁) := rfl
  rw [ends_bind_ok hreport, ends_bind_ok hdecide]
  simp only
  rw [ends_bind_ok hfetch]
  cases found <;> rfl

end Items

end Engine.HasBuilt

end ImportClosure
