import ImportClosure.Config.Rules
import ImportClosure.Proofs.Alike
import ImportClosure.Proofs.Inclusion
import ImportClosure.Proofs.Origins
import ImportClosure.Proofs.Resolved
import ImportClosure.Proofs.Roots

/-!
# Init entries

A package directory and the init entry in it are one module for the policy, the cache and the builder
(`Engine.takeIn_alike_initEntry`), but a walk names what it finds by the path that leads there: the directory goes by its
own name, the init entry by the name `__init__`. So walking the init entry is walking the directory as a module of that
name, and comes to the same only if the directory has it (`walk_initEntry`).
-/

namespace ImportClosure

open Step

/-- The name of an init entry up to its first dot. -/
def initStem : String := "__init__"

/-- A plugin layer that does not ask how a file is spelled: what it says about two files at one place is the same. -/
structure Plugins.IgnoresSpelling (p : Plugins) : Prop where
  encounter : ∀ f g name kind, f.place = g.place → p.encounter f name kind = p.encounter g name kind
  recursion : ∀ r file, file.place = r.file.place → p.recursion { r with file } = p.recursion r

/-- Plugin rules look at names only. -/
theorem PluginRules.ignoresSpelling (r : PluginRules) : r.plugins.IgnoresSpelling where
  encounter _ _ _ _ _ := rfl
  recursion _ _ _ := rfl

/-! ## The module at an init entry -/

namespace FileTree

variable {t : FileTree} {q : Path} {name : String}

/-- An init entry goes by its name up to the first dot. -/
theorem moduleAt?_initEntry (hq : q.isAbsolute = true) (hp : t.isRealPackage q = true) :
    t.moduleAt? (q.child initEntry) = some (initStem, .source) := by
  have hfile : t.isDir (q.child initEntry) = false := isDir_of_isFile (Bool.and_eq_true_iff.1 hp).2
  rw [moduleAt?_of_endsWith hq Path.isStep_initEntry (by decide) hfile (by decide), if_neg (by decide)]
  rfl

end FileTree

/-- An init entry is at the place of its directory. -/
theorem ModuleFile.place_initEntry {w q : Path} (hw : w.isAbsolute = true) (hq : q.IsCanonical w)
    (hne : q.fileName ≠ some initEntry) : ModuleFile.place ⟨q.child initEntry⟩ = ModuleFile.place ⟨q⟩ := by
  rw [← ofPath_of_isCanonical (hq.child Path.isStep_initEntry), place_child_initEntry hw hq.1, place_of_ne hne]

/-- A request for the init entry of a package has the target of a request for its directory. -/
theorem BuildRequest.target_initEntry {t : FileTree} {q : Path} (hq : q.IsCanonical t.workDir)
    (hp : t.isRealPackage q = true) (r : BuildRequest) :
    BuildRequest.target { r with file := ⟨q.child initEntry⟩ } t = BuildRequest.target { r with file := ⟨q⟩ } t := by
  obtain ⟨hdir, hinit⟩ := Bool.and_eq_true_iff.1 hp
  have hentry : ModuleFile.isInitEntry ⟨q.child initEntry⟩ = true := by
    rw [ModuleFile.isInitEntry, Path.fileName_child hq.1 Path.isStep_initEntry (by decide), beq_self_eq_true]
  simp only [target, hdir, hinit, FileTree.isDir_of_isFile hinit, hentry, if_true, Bool.false_eq_true, if_false,
    ModuleFile.ofPath_of_isCanonical (hq.child Path.isStep_initEntry)]

/-- A module is kept if a record of its identity is in the cache. -/
theorem Session.keeps_iff_mem {σ : Type} {s : Session σ} {i : Identity} :
    s.Keeps i ↔ i ∈ s.cache.modules.map ModuleRecord.identity := by
  rw [Keeps, Cache.find?, List.find?_isSome, List.mem_map]
  exact exists_congr fun m => and_congr_right fun _ => ModuleRecord.isOf_iff m i

/-! ## Taking in a package -/

namespace Engine

variable {e : Engine (List Identity)} {p : SearchPath} {q : Path}

/-- What is asked about a package directory that is walked under a name. -/
def packageQuery (q : Path) (n : ModuleName) : Query :=
  ⟨⟨q⟩, n, .source, true⟩

/-- Under any one name a package is taken in alike, by its init entry or by its directory. -/
theorem takeIn_alike_initEntry (he : e.builder = .ofSources p e.tree) (hplugins : e.policy.plugins.IgnoresSpelling)
    (hl : e.policy.library.IgnoresSpelling) (hw : e.tree.workDir.isAbsolute = true)
    (hq : q.IsCanonical e.tree.workDir) (hne : q.fileName ≠ some initEntry) (hp : e.tree.isRealPackage q = true)
    (n : ModuleName) : Alike (e.takeIn (packageQuery (q.child initEntry) n)) (e.takeIn (packageQuery q n)) := by
  have hplace := ModuleFile.place_initEntry hw hq hne
  have hkey : (packageQuery (q.child initEntry) n).key = (packageQuery q n).key :=
    congrArg (fun place => (⟨n, place, .source, true⟩ : QueryKey)) hplace
  refine takeIn_alike hkey (Policy.decide_eq_of_key hl hkey (hplugins.encounter _ _ _ _ hplace)) fun reason => ?_
  have hrecursion := hplugins.recursion ⟨n, ⟨q⟩, .source, none, none, reason⟩ ⟨q.child initEntry⟩ hplace
  refine ⟨congrArg (Identity.mk n) hplace, rfl, hrecursion, fun x => ?_⟩
  have htarget := BuildRequest.target_initEntry hq hp ⟨n, ⟨q⟩, .source, false, true⟩
  simp only [he, Builder.ofSources, RecursionRequest.toBuild, packageQuery, htarget, and_self]

/-- Takes in what a query is about, with all that is below it. -/
def takeInAll {σ : Type} (e : Engine σ) (q : Query) : Step σ Unit := do
  e.walkStack (e.tree.size + 2) (← e.takeIn q)

/-- A file or a real package stands for itself. -/
theorem exists_walk_path {σ : Type} {e : Engine σ} {path : Path} (package : Option ModuleName)
    (hpath : (e.tree.isFile path || e.tree.isRealPackage path) = true) (s : Session σ) :
    ∃ s₁, s.SameButLog s₁ ∧ ends (e.walk (.path path package)) s =
      ends (e.walkStack (e.tree.size + 2 + 1) [.single path package]) s₁ := by
  obtain ⟨s₁, htrace, hlog⟩ := onlyNotes_trace (e := e) (.checkingPath path package) s
  have hexpand : ends (e.expand (.path path package)) s = (.ok [.single path package], s₁) := by
    show ends (e.walkPath path package) s = _
    unfold walkPath
    rw [ends_bind_ok htrace, if_pos hpath]
    rfl
  refine ⟨s₁, hlog, ?_⟩
  unfold walk
  rw [ends_bind_ok hexpand, List.length_singleton, one_mul]

/-- Walking a file or a real package takes in what is there, with all that is below it. -/
theorem walk_alike_takeInAll {σ : Type} {e : Engine σ} {path : Path} {package : Option ModuleName} {q : Query}
    (hpath : (e.tree.isFile path || e.tree.isRealPackage path) = true) (hq : e.tree.query? path package = some q) :
    Alike (e.walk (.path path package)) (e.takeInAll q) := by
  have hstack : Alike (e.walkStack (e.tree.size + 2 + 1) [.single path package]) (e.takeInAll q) := by
    refine .bind (walkSingle_alike_takeIn hq) fun children => ?_
    rw [List.append_nil]
    exact walkStack_alike _ children
  intro s s' hs
  obtain ⟨s₁, hlog, hends⟩ := exists_walk_path package hpath s
  rw [hends]
  exact hstack s₁ s' (hlog.symm.trans hs)

/-! ## Names -/

section Names

variable {σ : Type} {e : Engine σ} {s s' : Session σ} {path : Path} {q : Query}

/-- While a path is walked, no module comes in but the one that the path asks about. -/
theorem mem_of_visits {query? : Option Query} {a : Action} {m : ModuleRecord} (h : Move e a s s')
    (ha : Action.Visits e query? a) (hm : m ∈ s'.cache.modules) :
    m ∈ s.cache.modules ∨ ∃ q r, query? = some q ∧ r.AsksFor q ∧ e.Grants r m := by
  cases a with
  | fetched r =>
    obtain ⟨q, reason, hq, hr, _⟩ := ha
    cases h
    rw [cache_of_fetch] at hm
    exact (mem_of_recurse hm).imp id fun hgrants => ⟨q, r, hq, hr, hgrants⟩
  | remarked | rooted | decided =>
    rw [(h.alike rfl).cache] at hm
    exact Or.inl hm
  | _ => exact ha.elim

/-- Everything that is kept has a certain name or lies in a package. -/
def NamedBelow (n : ModuleName) (s : Session σ) : Prop :=
  ∀ m ∈ s.cache.modules, m.name = n ∨ '.' ∈ m.name.text.toList

/-- What is left to be walked are members of packages. -/
def AreMembers (items : List WalkItem) : Prop :=
  ∀ item ∈ items, ∃ path package, item = .single path (some package)

/-- A module that is registered leaves members to be walked. -/
theorem Registered.areMembers {m : ModuleRecord} {children : List WalkItem} (h : e.Registered m children) :
    AreMembers children := by
  rcases h with ⟨_, rfl⟩ | ⟨_, names, _, rfl⟩
  · exact fun _ hmem => nomatch hmem
  · intro item hmem
    obtain ⟨name, _, rfl⟩ := List.mem_map.1 hmem
    exact ⟨_, _, rfl⟩

/-- A path that is walked leaves members of packages to be walked. -/
theorem Visited.areMembers {package : Option ModuleName} {children : List WalkItem}
    (h : e.Visited path package children s) : AreMembers children := by
  cases h with
  | registered _ _ _ _ _ hm => exact hm.areMembers
  | _ => exact fun _ hmem => nomatch hmem

/-- Members of packages come in with a dot in their names. -/
theorem walkStack_namedBelow (hb : e.builder.NamesAsked) {n : ModuleName} (bound : Nat) (items : List WalkItem)
    (hitems : AreMembers items) (hs : e.Remembers s ∧ NamedBelow n s) :
    Keeps (fun s => e.Remembers s ∧ NamedBelow n s) (e.walkStack bound items) s fun _ _ => True := by
  induction bound generalizing items s with
  | zero =>
    cases items with
    | nil => exact .pure hs trivial
    | cons item rest => exact .throw _ hs
  | succ bound ih =>
    cases items with
    | nil => exact .pure hs trivial
    | cons item rest =>
      obtain ⟨path, package, rfl⟩ := hitems item List.mem_cons_self
      refine .bind (.of_leads (walkSingle_leads hs.1 path (some package)) (fun a s s' ha hm hs => ?_) hs)
        fun children s₁ hs₁ hv => ih _ ?_ hs₁
      · refine ⟨hs.1.move hm, fun m hmem => ?_⟩
        rcases mem_of_visits hm ha hmem with hmem | ⟨q, r, hq, hr, _, x, o, ho, rfl⟩
        · exact hs.2 m hmem
        · obtain ⟨found, _, rfl⟩ := Option.map_eq_some_iff.1 hq
          right
          rw [hb _ _ _ ho, show r.toBuild.name = _ from hr.1]
          simp [ModuleName.inPackage, ModuleName.child]
      · intro item hmem
        rcases List.mem_append.1 hmem with hmem | hmem
        · exact hv.areMembers item hmem
        · exact hitems item (List.mem_cons_of_mem _ hmem)

/-- What is kept behind a path stays kept behind all that is below it. -/
theorem keeps_walkStack_of_walkSingle {package : Option ModuleName} {i : Identity} (hs : e.Remembers s) (bound : Nat)
    (h : (ends (e.walkSingle path package) s).2.Keeps i) :
    (ends (e.walkStack (bound + 1) [.single path package]) s).2.Keeps i := by
  have hmoves := (walkSingle_leads hs path package).1
  rcases hends : ends (e.walkSingle path package) s with ⟨err | children, s₁⟩
  · rw [hends] at h
    rw [show ends (e.walkStack (bound + 1) [.single path package]) s = _ from ends_bind_error hends _]
    exact h
  · rw [hends] at h hmoves
    rw [show ends (e.walkStack (bound + 1) [.single path package]) s = _ from ends_bind_ok hends _]
    exact (walkStack_leads bound (children ++ []) (hs.moves hmoves)).1.keeps_mono h

/-- Nothing is kept but a module of this identity. -/
structure KeepsOnly (e : Engine σ) (i : Identity) (s : Session σ) : Prop where
  remembers : e.Remembers s
  identity_eq : ∀ m ∈ s.cache.modules, m.identity = i

/-- If anything is kept it is the one module. -/
theorem KeepsOnly.keeps {i : Identity} (h : e.KeepsOnly i s) (hne : s.cache.modules ≠ []) : s.Keeps i := by
  obtain ⟨m, hm⟩ := List.exists_mem_of_ne_nil _ hne
  exact Session.keeps_iff_mem.2 (List.mem_map.2 ⟨m, hm, h.identity_eq m hm⟩)

/-- The one module has its own name. -/
theorem KeepsOnly.namedBelow {i : Identity} (h : e.KeepsOnly i s) : NamedBelow i.name s :=
  fun m hm => Or.inl (congrArg Identity.name (h.identity_eq m hm))

/-- Where nothing was kept, a path leads to no module but the one that it asks about. -/
theorem walkSingle_keepsOnly {package : Option ModuleName} (hq : e.tree.query? path package = some q)
    (hid : ∀ r m, r.AsksFor q → e.Grants r m → m.identity = q.identity) (hs : e.Remembers s)
    (hempty : s.cache.modules = []) :
    Keeps (e.KeepsOnly q.identity) (e.walkSingle path package) s (e.Visited path package) := by
  refine .of_leads (walkSingle_leads hs path package) (fun a s s' ha hm h => ⟨h.remembers.move hm, fun m hmem => ?_⟩)
    ⟨hs, by rw [hempty]; exact fun _ hmem => nomatch hmem⟩
  rcases mem_of_visits hm ha hmem with hmem | ⟨q', r, hq', hr, hgrants⟩
  · exact h.identity_eq m hmem
  · cases hq.symm.trans hq'
    exact hid r m hr hgrants

/-- Where nothing was kept, a walk of a path keeps the module that the path asks about if it keeps anything, and of other
names only members of packages. -/
theorem keeps_of_walkStack (hb : e.builder.NamesAsked) {package : Option ModuleName}
    (hq : e.tree.query? path package = some q) (hid : ∀ r m, r.AsksFor q → e.Grants r m → m.identity = q.identity)
    (hs : e.Remembers s) (hempty : s.cache.modules = []) (bound : Nat) :
    let s' := (ends (e.walkStack (bound + 1) [.single path package]) s).2
    (s'.cache.modules ≠ [] → s'.Keeps q.identity) ∧ NamedBelow q.name s' := by
  intro s'
  obtain ⟨honly, hvisited⟩ := walkSingle_keepsOnly hq hid hs hempty
  rcases hends : ends (e.walkSingle path package) s with ⟨err | children, s₁⟩
  · have hs' : s' = s₁ := congrArg Prod.snd (ends_bind_error hends _)
    rw [hends, ← hs'] at honly
    exact ⟨honly.keeps, honly.namedBelow⟩
  · rw [hends] at honly
    have hs' : s' = (ends (e.walkStack bound (children ++ [])) s₁).2 := congrArg Prod.snd (ends_bind_ok hends _)
    have hv := hvisited children s₁ hends
    have hbelow := (walkStack_namedBelow hb bound (children ++ []) (by simpa using hv.areMembers)
      ⟨honly.remembers, honly.namedBelow⟩).1.2
    have hmoves := (walkStack_leads bound (children ++ []) honly.remembers).1
    rw [← hs'] at hbelow hmoves
    refine ⟨fun hne => ?_, hbelow⟩
    -- a walk that leaves nothing to be walked has ended
    have hdone : children = [] → s' = s₁ := by
      rintro rfl
      rw [hs']
      cases bound <;> rfl
    cases hv with
    | registered _ _ _ _ hk _ =>
      exact hmoves.keeps_mono (honly.keeps (List.ne_nil_of_mem (List.mem_of_find?_eq_some hk)))
    | nothing | denied | passedOver => exact hmoves.keeps_mono (honly.keeps (hdone rfl ▸ hne))

/-- A walk that keeps anything keeps the module at its path, and what it keeps has the name of that module or lies in a
package. -/
theorem keeps_of_walk (hb : e.builder.NamesAsked) {package : Option ModuleName}
    (hpath : (e.tree.isFile path || e.tree.isRealPackage path) = true) (hq : e.tree.query? path package = some q)
    (hid : ∀ r m, r.AsksFor q → e.Grants r m → m.identity = q.identity) (x : σ) :
    let s' := (ends (e.walk (.path path package)) (.fresh x)).2
    (s'.cache.modules ≠ [] → s'.Keeps q.identity) ∧ NamedBelow q.name s' := by
  obtain ⟨s₁, ⟨events, diagnostics, rfl⟩, hends⟩ := exists_walk_path package hpath (.fresh x)
  rw [hends]
  exact keeps_of_walkStack hb hq hid (.of_nil rfl) rfl _

end Names

end Engine

/-- Over sources a module is named as requested. -/
theorem Builder.namesAsked_ofSources (p : SearchPath) (t : FileTree) : (Builder.ofSources p t).NamesAsked := by
  intro r x o ho
  rw [(Builder.given_of_ofSources ho).1]
  exact r.name_target t

/-! ## Walks of packages -/

/-- A real package directory, its path from the root, and the name that it goes by, which is not that of an init entry. -/
structure FileTree.PackageAt (t : FileTree) (dir q : Path) (name : String) : Prop where
  absolute : t.workDir.isAbsolute = true
  canonical : q.IsCanonical t.workDir
  ofPath_dir : ModuleFile.ofPath t.workDir dir = ⟨q⟩
  ofPath_init : ModuleFile.ofPath t.workDir (dir.child initEntry) = ⟨q.child initEntry⟩
  real : t.isRealPackage q = true
  fileName : q.fileName = some name
  ne : name ≠ initEntry

namespace FileTree.PackageAt

variable {t : FileTree} {dir q : Path} {name : String}

/-- A real package that is given by a path is the package at its absolute path. -/
theorem of_isRealPackage (hw : t.workDir.IsCanonical t.workDir) (hdir : t.isRealPackage dir = true)
    (hreal : t.isRealPackage (dir.absolute t.workDir) = true)
    (hname : (dir.absolute t.workDir).fileName = some name) (hne : name ≠ initEntry) :
    t.PackageAt dir (dir.absolute t.workDir) name := by
  have hdirText : dir.text ≠ "" := text_ne_of_exists? (exists?_of_isDir (Bool.and_eq_true_iff.1 hdir).1)
  exact ⟨hw.1, Path.isCanonical_absolute hw hdirText, rfl,
    congrArg ModuleFile.mk (Path.absolute_child hw.1 hdirText Path.isStep_initEntry), hreal, hname, hne⟩

/-- A package is not called like an init entry. -/
theorem fileName_ne (h : t.PackageAt dir q name) : q.fileName ≠ some initEntry := by
  rw [h.fileName]
  exact fun heq => h.ne (Option.some.inj heq)

/-- The directory is asked about under its own name. -/
theorem query?_dir (h : t.PackageAt dir q name) (package : Option ModuleName) :
    t.query? dir package = some (Engine.packageQuery q (.inPackage name package)) := by
  have hat := moduleAt?_of_isPackage h.fileName (isPackage_of_isRealPackage h.real)
  simp only [query?, h.ofPath_dir, hat, Option.map_some]
  rfl

/-- The init entry is asked about under the name `__init__`, by whatever path it is reached. -/
theorem query?_init (h : t.PackageAt dir q name) {path : Path}
    (hpath : ModuleFile.ofPath t.workDir path = .ofPath t.workDir (dir.child initEntry)) (package : Option ModuleName) :
    t.query? path package = some (Engine.packageQuery (q.child initEntry) (.inPackage initStem package)) := by
  simp only [query?, hpath, h.ofPath_init, moduleAt?_initEntry h.canonical.1 h.real, Option.map_some]
  rfl

/-- Either of the two asks about a module at the place of the directory. -/
theorem identity_packageQuery (h : t.PackageAt dir q name) {f : Path} (hf : f = q ∨ f = q.child initEntry)
    (n : ModuleName) : (Engine.packageQuery f n).identity = ⟨n, q.components⟩ := by
  have hplace : ModuleFile.place ⟨q⟩ = q.components := ModuleFile.place_of_ne h.fileName_ne
  rcases hf with rfl | rfl
  · exact congrArg (Identity.mk n) hplace
  · exact congrArg (Identity.mk n) ((ModuleFile.place_initEntry h.absolute h.canonical h.fileName_ne).trans hplace)

end FileTree.PackageAt

section Walks

variable {e : Engine (List Identity)} {p : SearchPath} {q dir : Path} {name : String}

/-- What is built for a package, asked for by its directory or by its init entry, is the module that was asked about. -/
theorem Engine.identity_of_grants (he : e.builder = .ofSources p e.tree) (h : e.tree.PackageAt dir q name) {f : Path}
    (hf : f = q ∨ f = q.child initEntry) {n : ModuleName} {r : RecursionRequest} (hr : r.AsksFor (packageQuery f n))
    {m : ModuleRecord} (hm : e.Grants r m) : m.identity = (packageQuery f n).identity := by
  obtain ⟨_, x, o, ho, rfl⟩ := hm
  obtain ⟨hn, hfile, _⟩ := hr
  rw [he] at ho
  have hbuild : r.toBuild = ⟨r.name, ⟨f⟩, r.kind, false, true⟩ := by
    rw [← show r.file = ⟨f⟩ from hfile]
    rfl
  have htarget : r.toBuild.target e.tree = BuildRequest.target ⟨r.name, ⟨q⟩, r.kind, false, true⟩ e.tree := by
    rw [hbuild]
    rcases hf with rfl | rfl
    · rfl
    · exact BuildRequest.target_initEntry h.canonical h.real ⟨r.name, ⟨q⟩, r.kind, false, true⟩
  have hinit : ModuleFile.isInitEntry ⟨q⟩ = false := by simpa [ModuleFile.isInitEntry] using h.fileName_ne
  have hid := BuildRequest.identity_target (r := ⟨r.name, ⟨q⟩, r.kind, false, true⟩) h.absolute h.canonical.1 hinit
  have hplace : ModuleFile.place ⟨q⟩ = q.components := ModuleFile.place_of_ne h.fileName_ne
  rw [(Builder.given_of_ofSources ho).1, htarget, hid, h.identity_packageQuery hf n, ← show r.name = n from hn]
  exact congrArg (Identity.mk r.name) hplace

/-- A walk of the init entry keeps the package under the name `__init__`, if it keeps anything. -/
theorem Engine.keeps_initStem (he : e.builder = .ofSources p e.tree) (h : e.tree.PackageAt dir q name)
    (hdir : e.tree.isRealPackage dir = true) (x : List Identity)
    (hsome : (ends (e.walk (.path (dir.child initEntry) none)) (.fresh x)).2.cache.modules ≠ []) :
    (ends (e.walk (.path (dir.child initEntry) none)) (.fresh x)).2.Keeps ⟨⟨initStem⟩, q.components⟩ := by
  have hb : e.builder.NamesAsked := he ▸ Builder.namesAsked_ofSources p e.tree
  have hinit : e.tree.isFile (dir.child initEntry) = true := (Bool.and_eq_true_iff.1 hdir).2
  rw [← h.identity_packageQuery (Or.inr rfl)]
  exact (keeps_of_walk hb (by rw [hinit, Bool.true_or]) (h.query?_init rfl none)
    (fun r m hr hm => identity_of_grants he h (Or.inr rfl) hr hm) x).1 hsome

/-- A walk of a directory of another name keeps nothing under this name. -/
theorem Engine.not_keeps_initStem (he : e.builder = .ofSources p e.tree) (h : e.tree.PackageAt dir q name)
    (hdir : e.tree.isRealPackage dir = true) (hname : name ≠ initStem) (x : List Identity)
    (place : List Path.Component) :
    ¬ (ends (e.walk (.path dir none)) (.fresh x)).2.Keeps ⟨⟨initStem⟩, place⟩ := by
  intro hkeeps
  have hb : e.builder.NamesAsked := he ▸ Builder.namesAsked_ofSources p e.tree
  have hnamed := (keeps_of_walk hb (by rw [hdir, Bool.or_true]) (h.query?_dir none)
    (fun r m hr hm => identity_of_grants he h (Or.inl rfl) hr hm) x).2
  obtain ⟨m, hm⟩ := Option.isSome_iff_exists.1 hkeeps
  have hmname : m.name = ⟨initStem⟩ := congrArg Identity.name (Cache.identity_of_find? hm)
  rcases hnamed m (List.mem_of_find?_eq_some hm) with hdirname | hdot
  · exact hname (congrArg ModuleName.text (hdirname.symm.trans hmname))
  · rw [hmname] at hdot
    exact absurd hdot (by decide)

/-- Where nothing speaks against it, a source that can be read is kept after a walk of its path, under the name and at the
place that the path leads to. -/
theorem Engine.keeps_of_readable (he : e.builder = .ofSources p e.tree) (hpolicy : e.policy.IsPermissive) {path f : Path}
    {bare : String} (hpath : (e.tree.isFile path || e.tree.isRealPackage path) = true)
    (hfile : ModuleFile.ofPath e.tree.workDir path = ⟨f⟩) (hat : e.tree.moduleAt? f = some (bare, .source))
    (hmain : (⟨bare⟩ : ModuleName) ≠ .main)
    (hid : (BuildRequest.target ⟨⟨bare⟩, ⟨f⟩, .source, false, true⟩ e.tree).1.identity = ⟨⟨bare⟩, ModuleFile.place ⟨f⟩⟩)
    (hread : ∀ source ∈ (BuildRequest.target ⟨⟨bare⟩, ⟨f⟩, .source, false, true⟩ e.tree).2,
      ∃ text statements, e.tree.readText source = .ok text ∧ Python.readImports text = .ok statements) :
    (ends (e.walk (.path path none)) (.fresh [])).2.Keeps ⟨⟨bare⟩, ModuleFile.place ⟨f⟩⟩ := by
  obtain ⟨s₀, ⟨events, diagnostics, rfl⟩, hwalk⟩ := exists_walk_path none hpath (.fresh [])
  have h₀ := (HasBuilt.fresh e).remark events diagnostics []
  have hname : ModuleName.inPackage bare none ≠ .main := hmain
  obtain ⟨r, s₁, hrid, hbuild, h₁, hsingle⟩ := h₀.exists_fetched hpolicy hfile hat hname
  obtain ⟨s₂, hfetch, h₂⟩ := h₁.exists_fetch he hpolicy.plugins (by rw [hbuild, hrid]; exact hid) List.not_mem_nil
    (by rw [hbuild]; exact hread)
  have hk := h₂.find?_eq_some List.mem_concat_self
  have hkeeps : s₂.Keeps ⟨⟨bare⟩, ModuleFile.place ⟨f⟩⟩ := by
    rw [← hid, Session.Keeps, ← show r.toBuild = ⟨⟨bare⟩, ⟨f⟩, .source, false, true⟩ from hbuild, hk]
    rfl
  rw [hwalk]
  refine keeps_walkStack_of_walkSingle h₀.remembers _ ?_
  rw [hsingle _ _ hfetch]
  have hmoves : Moves e (fun _ => True) s₂ _ := (registerIncluded_leads hk trivial trivial).1
  exact hmoves.keeps_mono hkeeps

/-! ## A package with one module -/

namespace FileTree

/-- A package with one module. -/
def smallPackage : FileTree :=
  packageOf [["a.py"]]

/-- The package of the small tree is the one at its path. -/
theorem smallPackage_packageAt : smallPackage.PackageAt ⟨"pkg"⟩ ⟨"/w/pkg"⟩ "pkg" :=
  ⟨by decide, ⟨by decide, by decide⟩, by decide +kernel, by decide +kernel, by decide +kernel, by decide, by decide⟩

end FileTree

/-- In this package the init entry is kept after a walk of its path. -/
theorem Engine.smallPackage_keeps :
    (ends ((overSources .smallPackage).walk (.path ⟨"pkg/__init__.py"⟩ none)) (.fresh [])).2.Keeps
      ⟨⟨initStem⟩, ModuleFile.place ⟨⟨"/w/pkg/__init__.py"⟩⟩⟩ := by
  refine keeps_of_readable (p := {}) rfl ⟨rfl, rfl, rfl, rfl⟩ (by decide +kernel) (by decide +kernel) (by decide +kernel)
    (by decide) (by decide +kernel) fun source hsource => ?_
  have htarget : (BuildRequest.target ⟨⟨initStem⟩, ⟨⟨"/w/pkg/__init__.py"⟩⟩, .source, false, true⟩
    (overSources .smallPackage).tree).2 = some ⟨"/w/pkg/__init__.py"⟩ := by decide +kernel
  cases htarget.symm.trans hsource
  exact ⟨"", [], by with_unfolding_all rfl, by with_unfolding_all rfl⟩

/-! ## The two spellings of a package -/

/-- A walk of a package directory takes in the package under the name of the directory. A walk of the init entry in it,
and of any path to it that a filename pattern gives, takes in the same package in the same way, but under the name
`__init__`. So the two leave the same behind if the directory has this name; if it has another and the walk of the init
entry keeps anything, it keeps the package under a name under which the walk of the directory does not keep it. -/
theorem walk_initEntry (he : e.builder = .ofSources p e.tree) (hplugins : e.policy.plugins.IgnoresSpelling)
    (hl : e.policy.library.IgnoresSpelling)
    (hw : e.tree.workDir.IsCanonical e.tree.workDir) (hdir : e.tree.isRealPackage dir = true)
    (hreal : e.tree.isRealPackage (dir.absolute e.tree.workDir) = true)
    (hname : (dir.absolute e.tree.workDir).fileName = some name) (hne : name ≠ initEntry) (x : List Identity) :
    let q := dir.absolute e.tree.workDir
    let init := dir.child initEntry
    (∀ package, Alike (e.walk (.path dir package)) (e.takeInAll (Engine.packageQuery q (.inPackage name package)))) ∧
      (∀ package,
        Alike (e.walk (.path init package)) (e.takeInAll (Engine.packageQuery q (.inPackage initStem package)))) ∧
      (∀ path package, ModuleFile.ofPath e.tree.workDir path = .ofPath e.tree.workDir init →
        Alike (e.expand (.single path package)) (e.takeIn (Engine.packageQuery q (.inPackage initStem package)))) ∧
      (name = initStem → Alike (e.walk (.path dir none)) (e.walk (.path init none))) ∧
      (name ≠ initStem → (ends (e.walk (.path init none)) (.fresh x)).2.cache.modules ≠ [] →
        (ends (e.walk (.path init none)) (.fresh x)).2.Keeps ⟨⟨initStem⟩, q.components⟩ ∧
          ¬ (ends (e.walk (.path dir none)) (.fresh x)).2.Keeps ⟨⟨initStem⟩, q.components⟩) := by
  intro q init
  have h : e.tree.PackageAt dir q name := .of_isRealPackage hw hdir hreal hname hne
  clear_value q
  have hinit : e.tree.isFile init = true := (Bool.and_eq_true_iff.1 hdir).2
  have hsame := Engine.takeIn_alike_initEntry he hplugins hl hw.1 h.canonical h.fileName_ne h.real
  have hwalkDir := fun package => Engine.walk_alike_takeInAll (by rw [hdir, Bool.or_true]) (h.query?_dir package)
  have hwalkInit : ∀ package,
      Alike (e.walk (.path init package)) (e.takeInAll (Engine.packageQuery q (.inPackage initStem package))) := by
    intro package
    have hwalk := Engine.walk_alike_takeInAll (by rw [hinit, Bool.true_or]) (h.query?_init rfl package)
    exact hwalk.trans (.bind (hsame _) fun children => Engine.walkStack_alike _ children)
  refine ⟨hwalkDir, hwalkInit, fun path package hpath => ?_, ?_, fun hother hsome =>
    ⟨Engine.keeps_initStem he h hdir x hsome, Engine.not_keeps_initStem he h hdir hother x q.components⟩⟩
  · exact (Engine.walkSingle_alike_takeIn (h.query?_init hpath package)).trans (hsame _)
  · rintro rfl
    exact (hwalkDir none).trans (hwalkInit none).symm

/-- The init entry of a package that is not called `__init__` is kept under this name, and the directory is not. -/
theorem walk_initEntry_smallPackage :
    let e := Engine.overSources .smallPackage
    (ends (e.walk (.path ⟨"pkg/__init__.py"⟩ none)) (.fresh [])).2.Keeps ⟨⟨initStem⟩, Path.components ⟨"/w/pkg"⟩⟩ ∧
      ¬ (ends (e.walk (.path ⟨"pkg"⟩ none)) (.fresh [])).2.Keeps ⟨⟨initStem⟩, Path.components ⟨"/w/pkg"⟩⟩ := by
  have habs : Path.absolute ⟨"pkg"⟩ (Engine.overSources .smallPackage).tree.workDir = ⟨"/w/pkg"⟩ := by decide +kernel
  have hinit : Path.child ⟨"pkg"⟩ initEntry = ⟨"pkg/__init__.py"⟩ := by decide
  have hdir : (Engine.overSources .smallPackage).tree.isRealPackage ⟨"pkg"⟩ = true := by decide +kernel
  have hname : Path.fileName ⟨"/w/pkg"⟩ = some "pkg" := by decide
  have h := walk_initEntry (e := Engine.overSources .smallPackage) (p := {}) rfl
    ⟨fun _ _ _ _ _ => rfl, fun _ _ _ => rfl⟩ (fun _ _ _ => rfl) ⟨by decide, by decide +kernel⟩ hdir
    (by rw [habs]; decide +kernel) (by rw [habs]; exact hname) (by decide) []
  rw [habs, hinit] at h
  refine h.2.2.2.2 (by decide) fun hnone => ?_
  have hmem := Session.keeps_iff_mem.1 Engine.smallPackage_keeps
  rw [hnone] at hmem
  cases hmem

/-- A package directory and its init entry do not leave the same modules behind. -/
theorem Engine.smallPackage_walks_ne :
    let e := overSources .smallPackage
    let modules := fun path => (ends (e.walk (.path path none)) (.fresh [])).2.cache.modules.map ModuleRecord.identity
    e.tree.isRealPackage ⟨"pkg"⟩ = true ∧ Path.child ⟨"pkg"⟩ initEntry = ⟨"pkg/__init__.py"⟩ ∧
      modules ⟨"pkg/__init__.py"⟩ ≠ modules ⟨"pkg"⟩ := by
  refine ⟨by decide +kernel, by decide, fun heq => ?_⟩
  have hmem := Session.keeps_iff_mem.1 smallPackage_keeps
  have hnot := not_keeps_initStem (e := overSources .smallPackage) (p := {}) rfl FileTree.smallPackage_packageAt
    (by decide +kernel) (by decide) [] (ModuleFile.place ⟨⟨"/w/pkg/__init__.py"⟩⟩)
  dsimp only at heq
  rw [heq] at hmem
  exact hnot (Session.keeps_iff_mem.2 hmem)

end Walks

end ImportClosure
