import ImportClosure.Proofs.Included
import ImportClosure.Proofs.Once
import ImportClosure.Proofs.Universe

/-!
# Discovery ends

Over a tree whose relative imports lead down, a session never queues anything but modules out of a finite set, which
depends on the tree and the plugins only. As no module is queued twice, a run to the fixed point ends
(`discovery_ends`). Without this it need not end: a package that imports its own init entry is found in itself under one
name after the other (`discovery_never_ends_selfImport`).
-/

namespace ImportClosure

open Step

/-- The engine works over the sources of its tree, all relative imports of which lead down, and its plugins declare
modules out of a list. No name that can be asked for has more than `most` components. -/
structure Engine.IsOverTree (e : Engine (List Identity)) (search : SearchPath) (declared : List Query) (most : Nat) :
    Prop where
  builder : e.builder = .ofSources search e.tree
  workDir : e.tree.workDir.isAbsolute = true
  leadDown : e.tree.importsLeadDown = true
  plugins : e.policy.plugins.DeclaresFrom declared
  most : ∀ name file, e.tree.Asked declared name file → name.components.length ≤ most

section Tree

variable {e : Engine (List Identity)} {search : SearchPath} {declared : List Query} {most : Nat}
  {s s' : Session (List Identity)}

/-- What the builder gives for a module that may be asked for is one of finitely many modules, and its imports may be
asked for. -/
theorem Engine.IsOverTree.outcome (he : e.IsOverTree search declared most) {r : BuildRequest} {x : List Identity}
    {o : BuildOutcome} (hr : e.tree.Asked declared r.name r.file)
    (ho : (e.builder.build r x).1.result = .ok (some o)) :
    o.record.identity ∈ e.tree.modulesWithin declared most ∧
      ∀ q ∈ o.uses.filterMap ImportEdge.query?, e.tree.Asked declared q.name q.file := by
  have htarget := hr.target_mem (he.most _ _ hr)
  rw [he.builder] at ho
  obtain ⟨hrecord, hgiven⟩ := Builder.given_of_ofSources ho
  refine ⟨hrecord ▸ htarget, ?_⟩
  intro q hq
  obtain ⟨edge, hedge, hq⟩ := List.mem_filterMap.1 hq
  obtain ⟨file, hfile, rfl⟩ := Option.map_eq_some_iff.1 hq
  rcases hgiven with ⟨_, hnone, _⟩ | ⟨_, hyields, _⟩
  · rw [hnone] at hedge
    cases hedge
  unfold SearchPath.Yields at hyields
  split at hyields
  · rw [hyields] at hedge
    cases hedge
  · obtain ⟨text, statements, htext, hread, huses⟩ := hyields
    rw [huses] at hedge
    obtain ⟨i, hi, hedge⟩ := List.mem_flatMap.1 hedge
    exact hr.resolve he.workDir he.leadDown (FileTree.mem_statements htext hread hi) hedge hfile

/-- What holds of a session all along: everything was queued once and is one of finitely many modules, and what the
queued modules import may be asked for. -/
structure Discovers (e : Engine (List Identity)) (declared : List Query) (most : Nat) (s : Session (List Identity)) :
    Prop where
  remembers : e.Remembers s
  once : Once e (fun x kept => ∀ i, kept i → i ∈ x) s
  asked : ∀ m ∈ s.pending, ∀ q ∈ m.uses.filterMap ImportEdge.query?, e.tree.Asked declared q.name q.file
  pushes : ∀ i ∈ s.pushes, i ∈ e.tree.modulesWithin declared most

namespace Discovers

/-- Over such a tree no module is built twice under one identity. -/
theorem buildsOnce (he : e.IsOverTree search declared most) :
    e.builder.BuildsOnce fun x kept => ∀ i, kept i → i ∈ x := by
  rw [he.builder]
  exact Builder.buildsOnce_ofSources search e.tree

/-- A module that comes in keeps the bounds. -/
theorem gains (h : Discovers e declared most s) {m : PendingModule} {queued signalled : Bool}
    (hg : s.Gains m queued signalled s') (hr : e.Remembers s')
    (ho : Once e (fun x kept => ∀ i, kept i → i ∈ x) s')
    (hm : m.record.identity ∈ e.tree.modulesWithin declared most)
    (huses : ∀ q ∈ m.uses.filterMap ImportEdge.query?, e.tree.Asked declared q.name q.file) :
    Discovers e declared most s' := by
  refine ⟨hr, ho, fun n hn => ?_, fun i hi => ?_⟩
  · rcases hg.mem_pending.1 hn with hn | ⟨_, rfl⟩
    · exact h.asked n hn
    · exact huses
  · rcases hg.mem_pushes.1 hi with hi | ⟨_, rfl⟩
    · exact h.pushes i hi
    · exact hm

/-- What leaves a session the same leaves it discovering. -/
theorem same (h : Discovers e declared most s) (hs : s.Same s') (hr : e.Remembers s')
    (ho : Once e (fun x kept => ∀ i, kept i → i ∈ x) s') : Discovers e declared most s' := by
  refine ⟨hr, ho, ?_, ?_⟩
  · rw [hs.pending]
    exact h.asked
  · rw [hs.pushes]
    exact h.pushes

/-- Consuming modules whose imports may be asked for keeps the bounds. -/
theorem move_of_consumes (he : e.IsOverTree search declared most) {ms : List PendingModule}
    (hms : ∀ m ∈ ms, ∀ q ∈ m.uses.filterMap ImportEdge.query?, e.tree.Asked declared q.name q.file)
    (h : Discovers e declared most s) {a : Action} (ha : Action.Consumes e ms a) (hm : Move e a s s') :
    Discovers e declared most s' := by
  have hr := h.remembers.move hm
  have ho : Once e (fun x kept => ∀ i, kept i → i ∈ x) s' := by
    refine h.once.move (buildsOnce he) (fun path hp => ?_) hm
    subst hp
    exact ha.sanctioned.sparesMain
  rcases Engine.same_or_gains_of_consumes ha hm with
    hs | ⟨m, hmem, q, reason, r, o, hq, _, ⟨hname, hfile, _⟩, hbuilt, _, hg⟩
  · exact h.same hs hr ho
  · have hasked : e.tree.Asked declared q.name q.file := by
      rcases hq with hq | ⟨imports, himports, hq⟩
      · exact hms m hmem q hq
      · exact .of_declared (he.plugins _ _ himports q hq)
    have hasked' : e.tree.Asked declared r.toBuild.name r.toBuild.file := by
      rw [← hname, ← hfile] at hasked
      exact hasked
    obtain ⟨hid, huses⟩ := he.outcome hasked' hbuilt
    exact h.gains hg hr ho (by rwa [Cache.identity_add]) huses

/-- A pass keeps the bounds, whatever it comes to. -/
theorem runPass (he : e.IsOverTree search declared most) (h : Discovers e declared most s) :
    Discovers e declared most (ends e.runPass s).2 := by
  have hdrained : Discovers e declared most { s with pending := [] } :=
    ⟨h.remembers, h.once.of_eq h.once.fits rfl rfl rfl rfl fun _ => rfl, nofun, h.pushes⟩
  exact (Engine.moves_runPass h.remembers).keeps
    (fun _ _ _ ha hm h' => h'.move_of_consumes he h.asked ha hm) hdrained

/-- A run to the fixed point keeps the bounds, also one that is given too small a bound. -/
theorem runToFixedPoint (he : e.IsOverTree search declared most) (h : Discovers e declared most s) (bound : Nat) :
    Discovers e declared most (ends (e.runToFixedPoint bound) s).2 := by
  have hpasses : Discovers e declared most (ends (e.runPasses bound) s).2 :=
    Engine.runPasses_keeps (fun _ h => h.runPass he) h bound
  rcases e.snd_ends_runToFixedPoint bound s with hend | hend <;> rw [hend]
  · exact hpasses
  · exact hpasses.same ⟨fun _ => Iff.rfl, rfl, rfl, rfl⟩ hpasses.remembers
      (hpasses.once.of_alike ⟨rfl, rfl, rfl, rfl, rfl⟩)

/-- No import of a queued module is found under a longer name. -/
theorem length_le (he : e.IsOverTree search declared most) (h : Discovers e declared most s) {m : PendingModule}
    (hm : m ∈ s.pending) {edge : ImportEdge} (hedge : edge ∈ m.uses) (hfile : edge.file.isSome = true) :
    edge.name.components.length ≤ most := by
  obtain ⟨file, hfile⟩ := Option.isSome_iff_exists.1 hfile
  have hq : edge.query? = some ⟨file, edge.name, edge.kind, false⟩ := by
    rw [ImportEdge.query?, hfile]
    rfl
  exact he.most _ _ (h.asked m hm _ (List.mem_filterMap.2 ⟨edge, hedge, hq⟩))

/-- The run to the fixed point ends, as there are only so many modules that can be queued. -/
theorem runToFixedPoint_ne_none (he : e.IsOverTree search declared most) (h : Discovers e declared most s) {bound : Nat}
    (hbound : (e.tree.modulesWithin declared most).ncard < bound) : (ends (e.runToFixedPoint bound) s).1 ≠ .ok none := by
  apply Engine.runToFixedPoint_ne_none
  refine Engine.runPasses_ne_none (e.tree.modulesWithin declared most).ncard (fun _ h => h.remembers)
    (fun s c s' hpass h => ?_) (fun s h => ?_) h (by omega)
  · have h' := h.runPass he
    rwa [hpass] at h'
  · exact h.once.pushes.length_le_ncard (e.tree.finite_modulesWithin declared most) h.pushes

/-- The entry keeps the bounds. -/
theorem addEntry (he : e.IsOverTree search declared most) {path : Path} (hpath : e.tree.exists? path = true) :
    Discovers e declared most (ends (e.addEntry path) (.fresh [])).2 := by
  have hfresh : e.Remembers (.fresh []) := .of_nil rfl
  have honce : Once e (fun x kept => ∀ i, kept i → i ∈ x) (.fresh []) := .fresh fun _ h => h.elim
  have h₀ : Discovers e declared most (.fresh []) := ⟨hfresh, honce, nofun, nofun⟩
  obtain ⟨result, s', hr, hc⟩ := e.entered path (.fresh [])
  rw [hr]
  have hrem : e.Remembers s' := hfresh.move (a := .entered path) (congrArg Prod.snd hr).symm
  have hkept := honce.entered (buildsOnce he) (Session.noMain_fresh []) hc
  rcases hc.same_or_gains with ⟨hs, _⟩ | ⟨o, hbuilt, hg⟩
  · exact h₀.same hs hrem hkept
  · have hasked : e.tree.Asked declared (e.entryBuild path).name (e.entryBuild path).file :=
      .main ⟨path, hpath, rfl⟩
    obtain ⟨hid, huses⟩ := he.outcome hasked hbuilt
    refine h₀.gains hg hrem hkept ?_ huses
    rw [Cache.identity_add]
    exact hid

end Discovers

end Tree

/-- Discovery over a tree ends if the relative imports in it lead down. For such a tree, a search path and the modules
that plugins may declare there are a bound for names and a finite set of modules such that, whatever the policy and the
entry, the run to the fixed point never queues a module outside of the set, never finds an import under a name with more
components, and comes to a report or an error after at most one pass more than there are modules in the set. -/
theorem discovery_ends (tree : FileTree) (search : SearchPath) (declared : List Query)
    (hw : tree.workDir.isAbsolute = true) (hdown : tree.importsLeadDown = true) :
    ∃ (most : Nat) (modules : Set Identity), modules.Finite ∧ (∀ i ∈ modules, i.name.components.length ≤ most) ∧
      ∀ (policy : Policy) (path : Path), policy.plugins.DeclaresFrom declared → tree.exists? path = true →
        let e : Engine _ := ⟨policy, tree, .ofSources search tree⟩
        let s := (ends (e.addEntry path) (.fresh [])).2
        (∀ bound, (∀ i ∈ (ends (e.runToFixedPoint bound) s).2.pushes, i ∈ modules) ∧
          ∀ m ∈ (ends (e.runToFixedPoint bound) s).2.pending, ∀ edge ∈ m.uses, edge.file.isSome = true →
            edge.name.components.length ≤ most) ∧
        ∀ bound, modules.ncard < bound → (ends (e.runToFixedPoint bound) s).1 ≠ .ok none := by
  obtain ⟨most, hmost⟩ := tree.exists_length_le declared
  refine ⟨most, tree.modulesWithin declared most, tree.finite_modulesWithin declared most, fun i hi => hi.1.1, ?_⟩
  intro policy path hplugins hpath e s
  have he : e.IsOverTree search declared most := ⟨rfl, hw, hdown, hplugins, hmost⟩
  have hs : Discovers e declared most s := .addEntry he hpath
  constructor
  · intro bound
    have hend := hs.runToFixedPoint he bound
    refine ⟨hend.pushes, ?_⟩
    intro m hm edge hedge hfile
    exact hend.length_le he hm hedge hfile
  · intro bound hbound
    exact hs.runToFixedPoint_ne_none he hbound

/-! ### Modules that import each other -/

/-- A program with a package and a module in it that import each other relatively. -/
def FileTree.cyclic : FileTree :=
  let main := (empty ⟨"/w"⟩).add ["w", "main.py"] (.text "import pkg\n")
  let package := main.add ["w", "pkg", "__init__.py"] (.text "from . import a\n")
  package.add ["w", "pkg", "a.py"] (.text "from . import a\n")

/-- The search path with the work directory in it. -/
def SearchPath.inWork : SearchPath :=
  { dirs := [⟨"/w"⟩] }

/-- A rule by which the package of this tree implies its module. -/
def PluginRules.cyclic : PluginRules :=
  { decisions := [], implicit := [⟨"pkg", ["pkg.a"]⟩], forbid := [], bytecode := [], search := .inWork, tree := .cyclic }

/-- Discovery over this tree takes three passes, and ends for every bound that is large enough. -/
theorem discovery_ends_cyclic :
    let tree := FileTree.cyclic
    let rules := PluginRules.cyclic
    let e : Engine _ := ⟨.followingAll rules.plugins, tree, .ofSources .inWork tree⟩
    let s := (ends (e.addEntry ⟨"main.py"⟩) (.fresh [])).2
    tree.workDir.isAbsolute = true ∧ tree.importsLeadDown = true ∧ rules.plugins.DeclaresFrom rules.declared ∧
      tree.exists? ⟨"main.py"⟩ = true ∧
      (ends (e.runToFixedPoint 3) s).1.toOption.join.map Report.passes = some [1, 1, 0] ∧
      ∃ least, ∀ bound, least < bound → (ends (e.runToFixedPoint bound) s).1 ≠ .ok none := by
  intro tree rules e s
  have hw : tree.workDir.isAbsolute = true := by decide
  have hdown : tree.importsLeadDown = true := by decide +kernel
  have hpath : tree.exists? ⟨"main.py"⟩ = true := by decide +kernel
  refine ⟨hw, hdown, rules.declaresFrom, hpath, by decide +kernel, ?_⟩
  obtain ⟨_, modules, _, _, h⟩ := discovery_ends tree .inWork rules.declared hw hdown
  exact ⟨modules.ncard, (h _ _ rules.declaresFrom hpath).2⟩

/-! ### A package that imports its own init entry -/

/-- A program with a package that imports its own init entry as if this were a module in it. -/
def FileTree.selfImport : FileTree :=
  ((empty ⟨"/w"⟩).add ["w", "main.py"] (.text "import pkg\n")).add ["w", "pkg", "__init__.py"]
    (.text "from . import __init__\n")

namespace SelfImport

/-- An engine that follows all imports of this program. -/
def engine : Engine (List Identity) :=
  ⟨.followingAll {}, .selfImport, .ofSources .inWork .selfImport⟩

/-- The init entry of the package. -/
def file : ModuleFile := ⟨⟨"/w/pkg/__init__.py"⟩⟩

/-- The names under which the package is found in itself. -/
def nested : Nat → ModuleName
  | 0 => ⟨"pkg"⟩
  | n + 1 => (nested n).child "__init__"

/-- A nested name is the package's with so many init entries behind it. -/
theorem components_nested (n : Nat) : (nested n).components = "pkg" :: List.replicate n "__init__" := by
  induction n with
  | zero => decide
  | succ n ih =>
    rw [nested, ModuleName.components_child, ih, List.replicate_succ']
    rfl

/-- Nested names of different depths are different. -/
theorem nested_injective {m n : Nat} (h : nested m = nested n) : m = n := by
  have := congrArg (fun name => name.components.length) h
  simpa [components_nested] using this

/-- A nested name is not that of the main module. -/
theorem nested_ne_main (n : Nat) : nested n ≠ .main := by
  intro h
  have := congrArg ModuleName.components h
  rw [components_nested, show ModuleName.main.components = ["__main__"] by decide] at this
  simp at this

/-- What is asked about the package under one of the names. -/
def query (n : Nat) : Query :=
  ⟨file, nested n, .source, false⟩

/-- The engine includes all nested modules. -/
theorem includes_query (n : Nat) : engine.Includes (query n) :=
  Policy.includes_followingAll rfl (nested_ne_main n) rfl

/-- Nested modules of different depths have different identities. -/
theorem identity_query_ne {m n : Nat} (h : m ≠ n) : (query m).identity ≠ (query n).identity :=
  fun he => h (nested_injective (congrArg Identity.name he))

def record (n : Nat) : ModuleRecord := { name := nested n, file, kind := .source, isPackage := true }

def edge (n : Nat) : ImportEdge := .found (nested n) file .source 1 ⟨file.path, 1⟩

/-- The package is built under each of the names and imports itself under the same and the next one. -/
theorem build_nested {x : List Identity} {n : Nat} (hx : (query n).identity ∉ x) :
    engine.builder.build ⟨nested n, file, .source, false, true⟩ x =
      ({ result := .ok (some ⟨record n, [edge n, edge (n + 1)], true⟩) }, (query n).identity :: x) := by
  have htarget : BuildRequest.target ⟨nested n, file, .source, false, true⟩ .selfImport = (record n, some file.path) := by
    have hd : FileTree.selfImport.isDir file.path = false := by decide +kernel
    have hi : file.isInitEntry = true := by decide +kernel
    simp [BuildRequest.target, hd, hi, record]
  have hid : (record n).identity = (query n).identity := rfl
  have htext : FileTree.selfImport.readText file.path = .ok "from . import __init__\n" := by rfl
  have hread : Python.readImports "from . import __init__\n" = .ok [⟨"", 1, ["__init__"], 1⟩] := by rfl
  have hresolve : SearchPath.inWork.resolve .selfImport (record n) ⟨"", 1, ["__init__"], 1⟩ =
      [edge n, edge (n + 1)] := by
    have hdir : file.identity = ⟨"/w/pkg"⟩ := by decide +kernel
    have hmodule : FileTree.selfImport.moduleAtDirectory? ⟨"/w/pkg"⟩ = some (file, .source) := by decide +kernel
    have hpackage : SearchPath.packageDir? .selfImport file = some ⟨"/w/pkg"⟩ := by decide +kernel
    have hmember : FileTree.selfImport.locateIn ⟨"/w/pkg"⟩ "__init__" = some (file, .source) := by decide +kernel
    simp [SearchPath.resolve, SearchPath.resolveRelative, SearchPath.relativeBase?, SearchPath.homePackage?,
      SearchPath.climb, SearchPath.memberEdges, record, edge, nested, hdir, hmodule, hpackage, hmember]
  have hread' : SearchPath.inWork.readSource .selfImport (record n) file.path true =
      (.ok (some [edge n, edge (n + 1)]), []) := by
    simp [SearchPath.readSource, htext, SearchPath.scan, hread, hresolve, bind, Except.bind]
  simp [engine, Builder.ofSources, htarget, hread', hid, hx]

/-- What holds before the package is built under the next name: one module is queued, and it imports the package under
this name last and under names that are kept before. -/
structure Nesting (n : Nat) (s : Session (List Identity)) : Prop where
  remembers : engine.Remembers s
  pending : ∃ m known last, s.pending = [⟨m, known ++ [last]⟩] ∧
    (∀ edge ∈ known, edge.finding = .found ∧ ∃ k < n, edge.query? = some (query k)) ∧
      last.finding = .found ∧ last.query? = some (query n)
  keeps : ∀ k, s.Keeps (query k).identity ↔ k < n
  unbuilt : ∀ k, n ≤ k → (query k).identity ∉ s.builder

/-- A pass builds the package under one more name. -/
theorem Nesting.runPass {n : Nat} {s : Session (List Identity)} (h : Nesting n s) :
    ∃ c s', ends engine.runPass s = (.ok c, s') ∧ Nesting (n + 1) s' := by
  obtain ⟨m, known, last, hpending, hknown, hlast, hquery⟩ := h.pending
  have hs₀ : engine.Remembers { s with pending := [] } := h.remembers
  obtain ⟨s₁, h₁, halike, hs₁⟩ := Engine.exists_alike_of_forM (m := m) (s := { s with pending := [] }) hs₀ fun edge hmem => by
    obtain ⟨hfound, k, hk, hq⟩ := hknown edge hmem
    exact ⟨hfound, _, hq, includes_query k, (h.keeps k).2 hk⟩
  have hbuild := build_nested (x := s₁.builder) (n := n) (by rw [halike.builder]; exact h.unbuilt n (Nat.le_refl n))
  obtain ⟨s₂, h₂, hgains, hbuilder⟩ := Engine.exists_of_builds (m := m) hs₁ hlast hquery (includes_query n) (fun _ => rfl)
    (by rw [halike.same.keeps]; exact fun hk => Nat.lt_irrefl n ((h.keeps n).1 hk)) (congrArg (fun a => a.1.result) hbuild)
  have hall : ends ((known ++ [last]).forM (engine.considerEdge m)) { s with pending := [] } = (.ok ⟨⟩, s₂) := by
    have happend : (known ++ [last]).forM (engine.considerEdge m) =
        known.forM (engine.considerEdge m) >>= fun _ => [last].forM (engine.considerEdge m) := List.forM_append
    rw [happend, ends_bind_ok h₁]
    exact ends_bind_ok h₂ fun _ => (Pure.pure ⟨⟩ : Step _ PUnit)
  obtain ⟨c, hpass⟩ := Engine.ends_runPass_of_singleton hpending rfl hall
  refine ⟨c, s₂, hpass, h.remembers.runPass hpass, ?_, fun k => ?_, fun k hk => ?_⟩
  · refine ⟨(s₁.cache.add (record n)).1, [edge n], edge (n + 1), ?_, ?_, rfl, rfl⟩
    · rw [hgains.pending, halike.pending]
      rfl
    · intro edge' hmem
      obtain rfl := List.mem_singleton.1 hmem
      exact ⟨rfl, n, Nat.lt_succ_self n, rfl⟩
  · rw [hgains.keeps, Cache.identity_add, halike.same.keeps, Nat.lt_succ_iff_lt_or_eq]
    refine or_congr (h.keeps k) ⟨fun he => nested_injective (congrArg Identity.name he), ?_⟩
    rintro rfl
    rfl
  · have hbuilt : s₂.builder = (query n).identity :: s₁.builder := hbuilder.trans (congrArg Prod.snd hbuild)
    rw [hbuilt, halike.builder, List.mem_cons, not_or]
    exact ⟨identity_query_ne (by omega), h.unbuilt k (by omega)⟩

/-- So a run over it does not end. -/
theorem Nesting.runToFixedPoint_eq_none {n : Nat} {s : Session (List Identity)} (h : Nesting n s) (bound : Nat) :
    (ends (engine.runToFixedPoint bound) s).1 = .ok none := by
  refine Engine.runToFixedPoint_eq_none (P := fun s => ∃ n, Nesting n s) (fun s h => ?_) ⟨n, h⟩ bound
  obtain ⟨n, h⟩ := h
  obtain ⟨c, s', hpass, h'⟩ := h.runPass
  obtain ⟨m, known, last, hpending, _⟩ := h'.pending
  exact ⟨c, s', hpass, by simp [hpending], n + 1, h'⟩

/-- The session in which the entry has been built. -/
theorem nesting_addEntry : Nesting 0 (ends (engine.addEntry ⟨"main.py"⟩) (.fresh [])).2 := by
  have hfresh : engine.Remembers (.fresh []) := .of_nil rfl
  have huses : (ends (engine.addEntry ⟨"main.py"⟩) (.fresh [])).2.pending.map PendingModule.uses =
      [[.found (nested 0) file .source 0 ⟨⟨"/w/main.py"⟩, 1⟩]] := by decide +kernel
  have hbuilder : ∀ i ∈ (ends (engine.addEntry ⟨"main.py"⟩) (.fresh [])).2.builder, i.name = .main := by
    decide +kernel
  have hkeptName : ∀ m ∈ (ends (engine.addEntry ⟨"main.py"⟩) (.fresh [])).2.cache.modules, m.name = .main := by
    decide +kernel
  refine ⟨hfresh.move (a := .entered ⟨"main.py"⟩) rfl, ?_, fun k => ?_, fun k _ hk => ?_⟩
  · obtain ⟨⟨m, uses⟩, hpending, hm⟩ := List.map_eq_singleton_iff.1 huses
    obtain rfl : uses = _ := hm
    exact ⟨m, [], _, hpending, nofun, rfl, rfl⟩
  · refine iff_of_false (fun hk => ?_) (Nat.not_lt_zero k)
    obtain ⟨kept, hkept⟩ := Option.isSome_iff_exists.1 hk
    refine nested_ne_main k ?_
    rw [← hkeptName kept (List.mem_of_find?_eq_some hkept)]
    exact congrArg Identity.name (Cache.identity_of_find? hkept).symm
  · exact nested_ne_main k (hbuilder _ hk)

/-- Whatever the bound, the run to the fixed point of this program does not end: every pass builds its package once
more, under a longer name. -/
theorem discovery_never_ends_selfImport :
    FileTree.selfImport.workDir.isAbsolute = true ∧ FileTree.selfImport.exists? ⟨"main.py"⟩ = true ∧
      ∀ bound, (ends (engine.runToFixedPoint bound) (ends (engine.addEntry ⟨"main.py"⟩) (.fresh [])).2).1 = .ok none := by
  exact ⟨by decide, by decide +kernel, nesting_addEntry.runToFixedPoint_eq_none⟩

end SelfImport

end ImportClosure
