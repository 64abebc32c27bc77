import ImportClosure.Config.Rules
import ImportClosure.Proofs.Failures
import ImportClosure.Proofs.Graph
import ImportClosure.Proofs.Included
import ImportClosure.Proofs.Origins

/-!
# Forbidden imports

Under plugin rules a module whose name is forbidden is kept only if it is the entry. A pass that ends at a forbidden import
says where that was met: at an import statement that the policy would have followed, or in a module that is configured to
need it (`forbidden_imports`). Plugin rules raise a forbidden import without a site, and the import that led to it gives it
one. The site that it has been given first stays, also where a builder gives one that stands elsewhere
(`forbidden_import_elsewhere`).
-/

namespace ImportClosure

variable {σ : Type}

open Step

/-! ## What the rules refuse -/

namespace PluginRules

variable {r : PluginRules} {name : ModuleName}

/-- A rule forbids a name. -/
def Forbids (r : PluginRules) (name : ModuleName) : Prop :=
  ∃ rule ∈ r.forbid, (rule.pattern.hit? name).isSome

instance (r : PluginRules) (name : ModuleName) : Decidable (r.Forbids name) :=
  inferInstanceAs (Decidable (∃ rule ∈ r.forbid, (rule.pattern.hit? name).isSome))

/-- What is not refused is not forbidden. -/
theorem not_forbids_of_refuse (h : r.refuse name = .ok ()) : ¬ r.Forbids name := by
  unfold refuse at h
  split at h
  · cases h
  next hnone =>
    rintro ⟨rule, hmem, hhit⟩
    exact List.find?_eq_none.1 hnone rule hmem hhit

/-- What is refused is forbidden, and the refusal says no more than the name and what is avoided. -/
theorem forbids_of_refuse {what : ForbiddenImport} (h : r.refuse name = .error what) :
    r.Forbids name ∧ ∃ avoiding, what = ⟨name, avoiding, .unattributed⟩ := by
  unfold refuse at h
  split at h
  next rule hrule =>
    cases h
    have hhit := List.find?_some hrule
    exact ⟨⟨rule, List.mem_of_find?_eq_some hrule, hhit⟩, rule.avoiding, rfl⟩
  · cases h

/-- A module gives no implicit imports at all if one of those that it is configured to have is forbidden. -/
theorem refuse_of_implicitImports {m : ModuleRecord} {what : ForbiddenImport}
    (h : r.plugins.implicitImports m = .error what) :
    ∃ name ∈ r.implicitNames m.name, r.refuse name = .error what := by
  obtain ⟨name, hmem, hname⟩ := exists_error_of_mapM h
  refine ⟨name, hmem, ?_⟩
  unfold implicitImport at hname
  rcases hr : r.refuse name with what' | _ <;> simp only [hr, bind, Except.bind] at hname
  · cases hname
    rfl
  · cases hname

/-- The implicit imports that a module gives are not forbidden. -/
theorem refuse_of_mem_implicitImports {m : ModuleRecord} {imports : List ImplicitImport} {i : ImplicitImport}
    (h : r.plugins.implicitImports m = .ok imports) (hi : i ∈ imports) : r.refuse i.name = .ok () := by
  obtain ⟨name, hmem, hname⟩ := exists_of_mem_mapM h hi
  unfold implicitImport at hname
  rcases hr : r.refuse name with what' | _ <;> simp only [hr, bind, Except.bind] at hname
  · cases hname
  · cases hname
    exact hr

end PluginRules

/-! ## Sites -/

/-- Giving a site to an error fills in that of a forbidden import that has none. -/
theorem Error.of_withSite {site : ImportSite} {err : Error} {f : ForbiddenImport} (h : err.withSite site = .forbidden f) :
    (∃ what : ForbiddenImport, err = .forbidden what ∧ f = { what with site }) ∨
      err = .forbidden f ∧ f.site ≠ .unattributed := by
  unfold withSite at h
  split at h
  next what =>
    split at h
    · cases h
      exact Or.inl ⟨what, rfl, rfl⟩
    next hsite =>
      cases h
      exact Or.inr ⟨rfl, hsite⟩
  next hother => exact absurd h (hother f)

/-- A forbidden import that was given a site has one. -/
theorem Error.site_of_withSite {site : ImportSite} {err : Error} {f : ForbiddenImport}
    (h : err.withSite site = .forbidden f) (hsite : site ≠ .unattributed) : f.site ≠ .unattributed := by
  rcases of_withSite h with ⟨what, _, rfl⟩ | ⟨_, hf⟩
  · exact hsite
  · exact hf

/-- A pass never ends at a forbidden import without a site, whatever the plugins and the builder are. -/
theorem Failure.site_ne {e : Engine σ} {m : PendingModule} {s : Session σ} {f : ForbiddenImport}
    (h : Failure e m s (.forbidden f)) : f.site ≠ .unattributed := by
  generalize herr : Error.forbidden f = err at h
  cases h with
  | atImport => exact Error.site_of_withSite herr.symm nofun
  | declaring => exact Error.site_of_withSite herr.symm nofun
  | implicit => exact Error.site_of_withSite herr.symm nofun

/-- A forbidden import at an import statement that the policy would have followed, or in a module that is configured to
need it, of a batch of modules that a pass consumes. -/
inductive Attributed (e : Engine σ) (rules : PluginRules) (batch : List PendingModule) (s : Session σ) :
    ForbiddenImport → Prop where
  | explicit {m : PendingModule} {edge : ImportEdge} {q : Query} {reason : Reason} {avoiding : String} (hm : m ∈ batch)
      (he : edge ∈ m.uses) (hq : edge.query? = some q) (hd : e.Stands q (.included reason))
      (hs : s.decisions.lookup q.key = some (.included reason)) (hf : rules.Forbids edge.name) :
      Attributed e rules batch s ⟨edge.name, avoiding, .explicit m.record.name edge.sourceRef⟩
  | implicit {m : PendingModule} {name : ModuleName} {avoiding : String} (hm : m ∈ batch)
      (hn : name ∈ rules.implicitNames m.record.name) (hf : rules.Forbids name) :
      Attributed e rules batch s ⟨name, avoiding, .implicit m.record.name⟩

/-- An attributed forbidden import stands in a module of the batch, or is needed by one. -/
theorem Attributed.exists_mem {e : Engine σ} {rules : PluginRules} {batch : List PendingModule} {s : Session σ}
    {f : ForbiddenImport} (h : Attributed e rules batch s f) :
    ∃ m ∈ batch, (∃ location, f.site = .explicit m.record.name location) ∨ f.site = .implicit m.record.name := by
  cases h with
  | explicit hm => exact ⟨_, hm, Or.inl ⟨_, rfl⟩⟩
  | implicit hm => exact ⟨_, hm, Or.inr rfl⟩

/-- What is refused as forbidden is so by the plugins, if it is not by the builder. -/
theorem Engine.Refuses.recursion_eq {e : Engine σ} {r : RecursionRequest} {err : Error} (hb : e.builder.NeverForbids)
    (h : e.Refuses r err) {site : ImportSite} {f : ForbiddenImport} (herr : err.withSite site = .forbidden f) :
    ∃ what, e.policy.plugins.recursion r = .error what ∧ err = .forbidden what := by
  cases h with
  | plugins hp => exact ⟨_, hp, rfl⟩
  | builder x hx =>
    cases err with
    | forbidden what => exact absurd hx (hb r.toBuild x what)
    | _ => cases herr

/-- A forbidden import at which a module fails is attributed to it, or to an import of it. -/
theorem Failure.attributed {e : Engine σ} {rules : PluginRules} (hp : e.policy.plugins = rules.plugins)
    (hb : e.builder.NeverForbids) {batch : List PendingModule} {m : PendingModule} (hm : m ∈ batch) {s : Session σ}
    (hs : e.Remembers s) {f : ForbiddenImport} (h : Failure e m s (.forbidden f)) : Attributed e rules batch s f := by
  generalize herr : Error.forbidden f = err at h
  cases h with
  | @atImport edge q err he hq h =>
    obtain ⟨⟨reason, hlookup⟩, r, ⟨hname, _⟩, hrefuses⟩ := h
    obtain ⟨what, hwhat, rfl⟩ := hrefuses.recursion_eq hb herr.symm
    rw [hp] at hwhat
    obtain ⟨hforbids, avoiding, rfl⟩ := PluginRules.forbids_of_refuse hwhat
    have hedge : r.name = edge.name := by
      obtain ⟨file, _, rfl⟩ := Option.map_eq_some_iff.1 hq
      exact hname
    rw [hedge] at hforbids herr
    cases herr
    exact .explicit hm he hq (Engine.stands_of_lookup hs hlookup) hlookup hforbids
  | declaring h =>
    rw [hp] at h
    obtain ⟨name, hname, hrefuse⟩ := PluginRules.refuse_of_implicitImports h
    obtain ⟨hforbids, avoiding, rfl⟩ := PluginRules.forbids_of_refuse hrefuse
    cases herr
    exact .implicit hm hname hforbids
  | @implicit imports i q err hi hmem hq h =>
    obtain ⟨_, r, ⟨hname, _⟩, hrefuses⟩ := h
    obtain ⟨what, hwhat, rfl⟩ := hrefuses.recursion_eq hb herr.symm
    rw [hp] at hi hwhat
    obtain ⟨hforbids, _⟩ := PluginRules.forbids_of_refuse hwhat
    -- declared imports were found not to be forbidden
    have hallowed := PluginRules.not_forbids_of_refuse (PluginRules.refuse_of_mem_implicitImports hi hmem)
    obtain ⟨file, _, rfl⟩ := Option.map_eq_some_iff.1 hq
    rw [show r.name = i.name from hname] at hforbids
    exact absurd hforbids hallowed

namespace Engine

variable {e : Engine σ} {rules : PluginRules} {s s' : Session σ}

/-- Under plugin rules a module with a forbidden name comes in as the entry only. -/
theorem enters_of_forbids (hp : e.policy.plugins = rules.plugins) (hnames : e.builder.NamesAsked) {ops : List Operation}
    {x : σ} {m : ModuleRecord} (hm : m ∈ (e.after ops (.fresh x)).cache.modules) (hf : rules.Forbids m.name) :
    e.Enters ops (.fresh x) m := by
  refine (exists_origin_of_fresh hm).resolve_right ?_
  rintro ⟨r, ⟨hrecursion, y, o, ho, rfl⟩, _⟩
  rw [hp] at hrecursion
  rw [hnames _ _ _ ho] at hf
  exact PluginRules.not_forbids_of_refuse hrecursion hf

/-- A pass that ends at a forbidden import attributes it. -/
theorem attributed_of_runPass (hp : e.policy.plugins = rules.plugins) (hs : e.Remembers s) {f : ForbiddenImport}
    (h : ends e.runPass s = (.error (.forbidden f), s')) :
    f.site ≠ .unattributed ∧ (e.builder.NeverForbids → Attributed e rules s.pending s' f) := by
  obtain ⟨m, hm, hfailure⟩ := failure_of_runPass h
  exact ⟨hfailure.site_ne, fun hb => hfailure.attributed hp hb hm (hs.runPass h)⟩

/-- Passes keep the remembered decisions true. -/
theorem Remembers.passed (hs : e.Remembers s) (h : Relation.ReflTransGen e.Passed s s') : e.Remembers s' := by
  induction h with
  | refl => exact hs
  | tail _ hpass ih =>
    obtain ⟨c, hpass⟩ := hpass
    exact ih.runPass hpass

end Engine

/-- Under plugin rules, over any builder that names its records as requested, after any operations: a module whose name is
forbidden is kept only as the entry. A forbidden import at which a pass ends, or a run to the fixed point in one of its
passes, was met at a site. If the builder leaves it to the plugins to forbid imports, the site is that of an import
statement of a module that the pass consumes, or the module is configured to need it. -/
theorem forbidden_imports {e : Engine σ} {rules : PluginRules} (hp : e.policy.plugins = rules.plugins)
    (hnames : e.builder.NamesAsked) (ops : List Operation) (x : σ) :
    let s := e.after ops (.fresh x)
    (∀ m ∈ s.cache.modules, rules.Forbids m.name → e.Enters ops (.fresh x) m) ∧
      (∀ f s', ends e.runPass s = (.error (.forbidden f), s') →
        f.site ≠ .unattributed ∧ (e.builder.NeverForbids → Attributed e rules s.pending s' f)) ∧
      ∀ bound f s', ends (e.runToFixedPoint bound) s = (.error (.forbidden f), s') →
        ∃ s₁, Relation.ReflTransGen e.Passed s s₁ ∧ ends e.runPass s₁ = (.error (.forbidden f), s') ∧
          f.site ≠ .unattributed ∧ (e.builder.NeverForbids → Attributed e rules s₁.pending s' f) := by
  intro s
  have hfresh : e.Remembers (.fresh x) := .of_nil rfl
  have hs : e.Remembers s := hfresh.moves (Engine.moves_after hfresh ops)
  refine ⟨?_, ?_, ?_⟩
  · intro m hm hf
    exact Engine.enters_of_forbids hp hnames hm hf
  · intro f s' h
    exact Engine.attributed_of_runPass hp hs h
  · intro bound f s' h
    obtain ⟨s₁, hpassed, hpass⟩ := Engine.exists_of_runToFixedPoint_error h
    exact ⟨s₁, hpassed, hpass, Engine.attributed_of_runPass hp (hs.passed hpassed) hpass⟩

/-! ## An engine that guards against old code -/

/-- The forbidden import that a step ends at. -/
def Step.forbiddenImport? {α : Type} : Except Error α → Option ForbiddenImport
  | .error (.forbidden f) => some f
  | _ => none

/-- A step ends at the forbidden import that is read off its result. -/
theorem Step.ends_of_forbiddenImport? {α : Type} {x : Step σ α} {s : Session σ} {f : ForbiddenImport}
    (h : forbiddenImport? (ends x s).1 = some f) : ends x s = (.error (.forbidden f), (ends x s).2) := by
  refine Prod.ext ?_ rfl
  unfold forbiddenImport? at h
  split at h
  next hends =>
    rw [hends, Option.some.inj h]
  · cases h

/-- Rules that forbid a package. -/
def PluginRules.guarding : PluginRules where
  decisions := []
  implicit := [⟨"app", ["codec"]⟩]
  forbid := ((NamePatterns.ofTexts ["legacy"]).toOption.getD []).map fun pattern => ⟨pattern, "old code"⟩
  bytecode := []
  search := ⟨[⟨"/w"⟩], []⟩
  tree := .empty ⟨"/w"⟩

/-- An engine with these rules, over an entry that imports a module which imports forbidden code. -/
def Engine.guarded : Engine (List BuildRequest) where
  policy := .followingAll PluginRules.guarding.plugins
  tree := .empty ⟨"/w"⟩
  builder := .ofTable [
    (.main, { uses := [ModuleTable.edgeTo "app"] }),
    (⟨"app"⟩, { uses := [ModuleTable.edgeTo "legacy.db"] }),
    (⟨"legacy.db"⟩, {})]

/-- A pass ends at old code, and says which module imports it and where. -/
theorem forbidden_imports_guarded :
    let s := Engine.guarded.after [.addEntry ⟨"main.py"⟩, .pass] (.fresh [])
    let f : ForbiddenImport := ⟨⟨"legacy.db"⟩, "old code", .explicit ⟨"app"⟩ ⟨⟨"/w/importer.py"⟩, 1⟩⟩
    ∃ s', ends Engine.guarded.runPass s = (.error (.forbidden f), s') ∧ f.site ≠ .unattributed ∧
      Attributed Engine.guarded .guarding s.pending s' f := by
  intro s f
  have hnames : Engine.guarded.builder.NamesAsked := (Builder.answersAsked_ofTable _).namesAsked
  have hb : Engine.guarded.builder.NeverForbids := Builder.neverForbids_ofTable _
  have hpass : ends Engine.guarded.runPass s = (.error (.forbidden f), (ends Engine.guarded.runPass s).2) :=
    Prod.ext (by with_unfolding_all rfl) rfl
  obtain ⟨hsite, hattributed⟩ := (forbidden_imports (e := Engine.guarded) rfl hnames _ []).2.1 f _ hpass
  exact ⟨_, hpass, hsite, hattributed hb⟩

/-! ## A builder that forbids imports itself -/

/-- A builder that refuses one module, and builds any other as one that imports it. -/
def Builder.refusing (f : ForbiddenImport) : Builder Unit where
  build r _ :=
    let record : ModuleRecord := { name := r.name, file := r.file, kind := r.kind }
    ({ result := if r.name = f.name then .error (.forbidden f)
        else .ok (some ⟨record, [ModuleTable.edgeTo f.name.text], true⟩) }, ())

/-- What such a builder gives has the name that was requested. -/
theorem Builder.namesAsked_refusing (f : ForbiddenImport) : (refusing f).NamesAsked := by
  intro r x o h
  simp only [refusing] at h
  split at h
  · cases h
  · cases h
    rfl

/-- The engine with the rules from above, over a builder that says where it met a forbidden import. -/
def Engine.refusing : Engine Unit where
  policy := .followingAll PluginRules.guarding.plugins
  tree := .empty ⟨"/w"⟩
  builder := .refusing ⟨⟨"db"⟩, "old code", .explicit ⟨"vendored"⟩ ⟨⟨"/w/vendored.py"⟩, 3⟩⟩

/-- What a builder forbids at a site of its own is not attributed anew: a pass, and a run to the fixed point in it, ends
at a forbidden import that is said to stand in a module which the pass does not consume. -/
theorem forbidden_import_elsewhere :
    let e := Engine.refusing
    let s := e.after [.addEntry ⟨"main.py"⟩] (.fresh ())
    let f : ForbiddenImport := ⟨⟨"db"⟩, "old code", .explicit ⟨"vendored"⟩ ⟨⟨"/w/vendored.py"⟩, 3⟩⟩
    e.policy.plugins = PluginRules.guarding.plugins ∧ e.builder.NamesAsked ∧
      s.pending.map (fun m => m.record.name) = [.main] ∧ (∃ s', ends e.runPass s = (.error (.forbidden f), s')) ∧
        (∃ s', ends (e.runToFixedPoint 1) s = (.error (.forbidden f), s')) ∧
          ∀ s', ¬ Attributed e .guarding s.pending s' f := by
  intro e s f
  have hpending : s.pending.map (fun m => m.record.name) = [.main] := by decide +kernel
  have hpass : forbiddenImport? (ends e.runPass s).1 = some f := by decide +kernel
  have hrun : forbiddenImport? (ends (e.runToFixedPoint 1) s).1 = some f := by decide +kernel
  refine ⟨rfl, Builder.namesAsked_refusing _, hpending, ⟨_, ends_of_forbiddenImport? hpass⟩,
    ⟨_, ends_of_forbiddenImport? hrun⟩, fun s' hattributed => ?_⟩
  obtain ⟨m, hm, ⟨_, hsite⟩ | hsite⟩ := hattributed.exists_mem
  · have hmain : m.record.name = .main := List.mem_singleton.1 (hpending ▸ List.mem_map_of_mem hm)
    have hvendored : (⟨"vendored"⟩ : ModuleName) = m.record.name := (ImportSite.explicit.inj hsite).1
    exact absurd (hvendored.trans hmain) (by decide)
  · cases hsite

end ImportClosure
