import ImportClosure.Proofs.Forbidden

/-!
# Modules that are not consumed to the end

Consuming a module ends at the first import edge that fails, and then the session is the one that the edges in front of it
have left (`consider_aborts`). All that the failing edge itself leaves is its report if it is not found, the decision about
its target, and what the builder makes of the build that failed; the edges behind it and the plugins' declared imports are
not looked at. Where the plugins refuse to declare the imports, the session is the one that all edges have left. What is
forbidden is the import of the failing edge, unless it was raised with a site of its own (`consider_aborts_elsewhere`).
-/

namespace ImportClosure

variable {σ : Type}

open Step

/-- Steps for all members of a list end where one of them fails, behind those that succeed. -/
theorem Step.ends_forM_error {α : Type} {xs ys : List α} {x : α} {f : α → Step σ PUnit} {s s₁ s₂ : Session σ} {err : Error}
    (hxs : ends (xs.forM f) s = (.ok ⟨⟩, s₁)) (hx : ends (f x) s₁ = (.error err, s₂)) :
    ends ((xs ++ x :: ys).forM f) s = (.error err, s₂) := by
  induction xs generalizing s with
  | nil =>
    cases hxs
    exact ends_bind_error hx _
  | cons x' xs ih =>
    obtain ⟨_, s', hx', hrest⟩ := exists_of_ends_bind hxs
    exact (ends_bind_ok hx' _).trans (ih hrest)

/-! ## The edge that fails -/

/-- What is asked for when an import edge is followed. -/
def ImportEdge.request (edge : ImportEdge) (m : ModuleRecord) (file : ModuleFile) (reason : Reason) : RecursionRequest :=
  ⟨edge.name, file, edge.kind, some m.name, some edge.sourceRef, reason.text⟩

namespace Engine

/-- The error in which asking for a module ends in a session, and the builder that is left: the plugins refuse the module
before it is built, or the builder fails. -/
inductive Bars (e : Engine σ) (r : RecursionRequest) (s : Session σ) : Error → σ → Prop where
  | plugins {what : ForbiddenImport} (h : e.policy.plugins.recursion r = .error what) :
      Bars e r s (.forbidden what) s.builder
  | builder {err : Error} (h : (e.builder.build r.toBuild s.builder).1.result = .error err) :
      Bars e r s err (e.builder.build r.toBuild s.builder).2

/-- What an import edge that ends in an error leaves of a session, and why it ends so: nothing is kept, queued, signalled,
built, made a root or noted as used, and nothing is diagnosed but the edge itself. -/
structure Aborts (e : Engine σ) (m : ModuleRecord) (edge : ImportEdge) (s : Session σ) (err : Error) (s' : Session σ) :
    Prop where
  cache : s'.cache = s.cache
  pending : s'.pending = s.pending
  changes : s'.changes = s.changes
  registry : s'.registry = s.registry
  history : s'.history = s.history
  diagnostics : s'.diagnostics = (s.reported m edge).diagnostics
  warned : s'.warned = (s.reported m edge).warned
  /-- The target is included and not kept, and asking for it ends in an error, which is attributed to the edge. -/
  cause : ∃ file reason raised, edge.file = some file ∧
    s'.decisions.lookup (Query.key ⟨file, edge.name, edge.kind, false⟩) = some (.included reason) ∧
    s.cache.get? edge.name file = none ∧ e.Bars (edge.request m file reason) s raised s'.builder ∧
    err = raised.atImport m.name edge.sourceRef

/-- The engine whose plugins declare these imports, all else as it is. -/
def declaring (e : Engine σ) (declared : ModuleRecord → Except ForbiddenImport (List ImplicitImport)) : Engine σ :=
  { e with policy := { e.policy with plugins := { e.policy.plugins with implicitImports := declared } } }

variable {e : Engine σ} {m : ModuleRecord} {edge : ImportEdge} {s s' : Session σ} {err : Error}

/-- An import edge fails where its target is asked for: behind its report and the decision to include the target. -/
theorem exists_recursed_of_error (h : ends (e.considerEdge m edge) s = (.error err, s')) :
    ∃ file reason s₁ raised, edge.file = some file ∧
      ends (e.decide ⟨file, edge.name, edge.kind, false⟩) (s.reported m edge) = (.ok (.included reason), s₁) ∧
      Recursed e (edge.request m file reason) true s₁ (.error raised) s' ∧
      err = raised.atImport m.name edge.sourceRef := by
  unfold considerEdge at h
  rw [ends_bind_ok (ends_reportMissing m edge s)] at h
  cases hfile : edge.file with
  | none =>
    simp only [hfile] at h
    cases h
  | some file =>
    simp only [hfile] at h
    obtain ⟨raised, hfollow, rfl⟩ := error_of_attributed h
    obtain ⟨reason, s₁, hd, hc⟩ := recursed_of_followEdge hfollow
    exact ⟨file, reason, s₁, raised, rfl, hd, hc, rfl⟩

/-- An import edge that fails leaves nothing of itself. -/
theorem aborts_of_considerEdge (h : ends (e.considerEdge m edge) s = (.error err, s')) : e.Aborts m edge s err s' := by
  obtain ⟨file, reason, s₁, raised, hfile, hd, hc, rfl⟩ := exists_recursed_of_error h
  obtain ⟨diagnostics, warned, events, hreported⟩ := s.exists_reported m edge
  have hlookup := lookup_of_decide hd
  obtain ⟨decisions, events', rfl⟩ : ∃ decisions events, s₁ = { s.reported m edge with decisions, events } := by
    rcases e.ends_decide ⟨file, edge.name, edge.kind, false⟩ (s.reported m edge) with ⟨_, _, hq⟩ | ⟨_, events', hq⟩
    · exact ⟨_, _, (congrArg Prod.snd (hd.symm.trans hq))⟩
    · exact ⟨_, _, (congrArg Prod.snd (hd.symm.trans hq))⟩
  rw [hreported] at hc hlookup
  cases hc with
  | refused hnew hp =>
    refine ⟨rfl, rfl, rfl, rfl, rfl, ?_, ?_, file, reason, _, hfile, hlookup, hnew, .plugins hp, rfl⟩ <;> rw [hreported]
  | failed events hnew hb =>
    refine ⟨rfl, rfl, rfl, rfl, rfl, ?_, ?_, file, reason, _, hfile, hlookup, hnew, .builder hb, rfl⟩ <;> rw [hreported]

/-- What the plugins declare does not matter to an edge. -/
theorem considerEdge_declaring (e : Engine σ) (declared : ModuleRecord → Except ForbiddenImport (List ImplicitImport))
    (m : ModuleRecord) : (e.declaring declared).considerEdge m = e.considerEdge m :=
  rfl

/-- Consuming a module ends where one of its edges fails. -/
theorem ends_consider_error {xs ys : List ImportEdge} {s₁ : Session σ}
    (hxs : ends (xs.forM (e.considerEdge m)) s = (.ok ⟨⟩, s₁))
    (hedge : ends (e.considerEdge m edge) s₁ = (.error err, s')) :
    ends (e.consider m (xs ++ edge :: ys)) s = (.error err, s') :=
  ends_bind_error (ends_forM_error hxs hedge) _

/-- Consuming a module ends where the plugins refuse to declare its imports. -/
theorem ends_consider_refused {xs : List ImportEdge} {what : ForbiddenImport}
    (hxs : ends (xs.forM (e.considerEdge m)) s = (.ok ⟨⟩, s')) (h : e.policy.plugins.implicitImports m = .error what) :
    ends (e.consider m xs) s = (.error ((Error.forbidden what).implicitIn m.name), s') := by
  unfold consider
  rw [ends_bind_ok hxs, implicitImports, h]
  rfl

end Engine

/-! ## Forbidden imports -/

/-- A list of computations fails as the first of them that does. -/
theorem mapM_append_eq_error {ε α β : Type} {g : α → Except ε β} {xs ys : List α} {x : α} {err : ε}
    (hxs : ∀ y ∈ xs, ∃ z, g y = .ok z) (hx : g x = .error err) : (xs ++ x :: ys).mapM g = .error err := by
  induction xs with
  | nil =>
    rw [List.nil_append, List.mapM_cons, hx]
    rfl
  | cons y xs ih =>
    obtain ⟨z, hz⟩ := hxs y List.mem_cons_self
    rw [List.cons_append, List.mapM_cons, hz, ih fun y' hy' => hxs y' (List.mem_cons_of_mem y hy')]
    rfl

/-- Plugin rules declare nothing for a module if an import that it is configured to have is forbidden, and they refuse the
first such import, whatever stands in front of it. -/
theorem PluginRules.implicitImports_eq_error {r : PluginRules} {m : ModuleRecord} {before after : List ModuleName}
    {name : ModuleName} (hnames : r.implicitNames m.name = before ++ name :: after) (hf : r.Forbids name)
    (hbefore : ∀ n ∈ before, ¬ r.Forbids n) :
    ∃ avoiding, r.plugins.implicitImports m = .error ⟨name, avoiding, .unattributed⟩ := by
  have hfront : ∀ n ∈ before, ∃ i, r.implicitImport m.name n = .ok i := by
    intro n hn
    unfold implicitImport
    rcases hr : r.refuse n with what | _
    · exact absurd (forbids_of_refuse hr).1 (hbefore n hn)
    · exact ⟨_, rfl⟩
  rcases hr : r.refuse name with what | _
  · obtain ⟨_, avoiding, rfl⟩ := forbids_of_refuse hr
    have hname : r.implicitImport m.name name = .error ⟨name, avoiding, .unattributed⟩ := by
      unfold implicitImport
      rw [hr]
      rfl
    refine ⟨avoiding, ?_⟩
    rw [show r.plugins.implicitImports m = (r.implicitNames m.name).mapM (r.implicitImport m.name) from rfl, hnames]
    exact mapM_append_eq_error hfront hname
  · exact absurd hf (not_forbids_of_refuse hr)

namespace Engine

variable {e : Engine σ} {m : ModuleRecord} {edge : ImportEdge} {s s' : Session σ} {f : ForbiddenImport}

/-- Where the builder forbids nothing itself, what plugin rules refuse is forbidden and is raised without a site. -/
theorem Bars.forbids_of_rules {rules : PluginRules} (hp : e.policy.plugins = rules.plugins) (hb : e.builder.NeverForbids)
    {r : RecursionRequest} {left : σ} (h : e.Bars r s (.forbidden f) left) :
    rules.Forbids r.name ∧ ∃ avoiding, f = ⟨r.name, avoiding, .unattributed⟩ := by
  generalize hraised : Error.forbidden f = raised at h
  cases h with
  | plugins h =>
    cases hraised
    rw [hp] at h
    exact PluginRules.forbids_of_refuse h
  | builder h =>
    cases hraised
    exact absurd h (hb _ _ f)

/-- A forbidden import at an edge names the edge, unless it was raised with a site. -/
theorem Aborts.site (h : e.Aborts m edge s (.forbidden f) s') :
    f.site = .explicit m.name edge.sourceRef ∨
      f.site ≠ .unattributed ∧ ∃ r, e.Bars r s (.forbidden f) s'.builder := by
  obtain ⟨file, reason, raised, _, _, _, hbars, herr⟩ := h.cause
  rcases Error.of_withSite herr.symm with ⟨what, _, rfl⟩ | ⟨rfl, hsite⟩
  · exact Or.inl rfl
  · exact Or.inr ⟨hsite, _, hbars⟩

/-- Under plugin rules a forbidden import at an edge is the target of the edge, and names the edge. -/
theorem Aborts.forbids_of_rules {rules : PluginRules} (hp : e.policy.plugins = rules.plugins)
    (hb : e.builder.NeverForbids) (h : e.Aborts m edge s (.forbidden f) s') :
    rules.Forbids edge.name ∧ ∃ avoiding, f = ⟨edge.name, avoiding, .explicit m.name edge.sourceRef⟩ := by
  obtain ⟨file, reason, raised, _, _, _, hbars, herr⟩ := h.cause
  rcases Error.of_withSite herr.symm with ⟨what, rfl, rfl⟩ | ⟨rfl, hsite⟩
  · obtain ⟨hforbids, avoiding, rfl⟩ := hbars.forbids_of_rules hp hb
    exact ⟨hforbids, avoiding, rfl⟩
  · obtain ⟨_, avoiding, rfl⟩ := hbars.forbids_of_rules hp hb
    exact absurd rfl hsite

end Engine

/-- Consuming a module whose first edges succeed. If the edge behind them ends in an error, so does the module, with the
session that this edge leaves: the one that the first edges have left, with the report of an edge that is not found, the
decision about its target, and the builder behind the one build that may have failed. Neither the edges further on nor what
the plugins would declare for the module make a difference. A forbidden import names the module and the place of the edge,
unless it was raised with a site already; under plugin rules, over a builder that forbids nothing itself, it always does.
If the edges are all of the module's and the plugins refuse to declare its imports, the session is the one that the edges
have left, and rules refuse the first forbidden name, whatever they would declare in front of it. -/
theorem consider_aborts (e : Engine σ) (m : ModuleRecord) {xs : List ImportEdge} {s s₁ : Session σ}
    (hxs : ends (xs.forM (e.considerEdge m)) s = (.ok ⟨⟩, s₁)) :
    (∀ edge err s₂, ends (e.considerEdge m edge) s₁ = (.error err, s₂) →
      (∀ ys, ends (e.consider m (xs ++ edge :: ys)) s = (.error err, s₂) ∧
        ∀ declared, ends ((e.declaring declared).consider m (xs ++ edge :: ys)) s = (.error err, s₂)) ∧
      e.Aborts m edge s₁ err s₂ ∧
      (∀ f, err = .forbidden f → f.site = .explicit m.name edge.sourceRef ∨
        f.site ≠ .unattributed ∧ ∃ r, e.Bars r s₁ (.forbidden f) s₂.builder) ∧
      ∀ rules : PluginRules, e.policy.plugins = rules.plugins → e.builder.NeverForbids → ∀ f, err = .forbidden f →
        rules.Forbids edge.name ∧ ∃ avoiding, f = ⟨edge.name, avoiding, .explicit m.name edge.sourceRef⟩) ∧
    (∀ what, e.policy.plugins.implicitImports m = .error what →
      ends (e.consider m xs) s = (.error ((Error.forbidden what).implicitIn m.name), s₁)) ∧
    ∀ (rules : PluginRules) (before after : List ModuleName) (name : ModuleName), e.policy.plugins = rules.plugins →
      rules.implicitNames m.name = before ++ name :: after → rules.Forbids name → (∀ n ∈ before, ¬ rules.Forbids n) →
        ∃ avoiding, ends (e.consider m xs) s = (.error (.forbidden ⟨name, avoiding, .implicit m.name⟩), s₁) := by
  refine ⟨fun edge err s₂ hedge => ?_, fun what h => Engine.ends_consider_refused hxs h, ?_⟩
  · have haborts := Engine.aborts_of_considerEdge hedge
    refine ⟨fun ys => ⟨Engine.ends_consider_error hxs hedge, fun declared => ?_⟩, haborts, ?_, ?_⟩
    · rw [← Engine.considerEdge_declaring e declared m] at hxs hedge
      exact Engine.ends_consider_error hxs hedge
    · rintro f rfl
      exact haborts.site
    · rintro rules hp hb f rfl
      exact haborts.forbids_of_rules hp hb
  · intro rules before after name hp hnames hf hbefore
    obtain ⟨avoiding, h⟩ := PluginRules.implicitImports_eq_error hnames hf hbefore
    rw [← hp] at h
    exact ⟨avoiding, Engine.ends_consider_refused hxs h⟩

/-- Rules under which a module needs a forbidden one, behind one that is not forbidden. -/
def PluginRules.guardingImplicitly : PluginRules :=
  { PluginRules.guarding with implicit := [⟨"app", ["codec", "legacy.db"]⟩] }

/-- An engine with these rules. -/
def Engine.guardedImplicitly : Engine (List BuildRequest) :=
  { Engine.guarded with policy := .followingAll PluginRules.guardingImplicitly.plugins }

/-- An import of forbidden code that is not found is reported and ends a module behind its first import; without it the
module ends at the forbidden code that it is configured to need. -/
theorem consider_aborts_guarded :
    let e := Engine.guardedImplicitly
    let m : ModuleRecord := { name := ⟨"app"⟩, file := ⟨⟨"/w/app.py"⟩⟩, kind := .source }
    let first := ModuleTable.edgeTo "app"
    let edge : ImportEdge := { ModuleTable.edgeTo "legacy.db" with finding := .notFound }
    ∃ s₁ s₂ avoiding,
      ends (e.consider m [first, edge, ModuleTable.edgeTo "later"]) (.fresh []) =
        (.error (.forbidden ⟨⟨"legacy.db"⟩, "old code", .explicit ⟨"app"⟩ edge.sourceRef⟩), s₂) ∧
      s₂.pending = s₁.pending ∧ s₁.pending.map (fun p => p.record.name) = [⟨"app"⟩] ∧ s₂.warned = [edge.name] ∧
      ends (e.consider m [first]) (.fresh []) = (.error (.forbidden ⟨⟨"legacy.db"⟩, avoiding, .implicit ⟨"app"⟩⟩), s₁) := by
  intro e m first edge
  obtain ⟨_, s₁, hfirst⟩ := exists_of_isOk (x := [first].forM (e.considerEdge m)) (s := .fresh []) (by decide +kernel)
  obtain rfl : (ends ([first].forM (e.considerEdge m)) (.fresh [])).2 = s₁ := congrArg Prod.snd hfirst
  have hedge := ends_of_forbiddenImport? (x := e.considerEdge m edge)
    (s := (ends ([first].forM (e.considerEdge m)) (.fresh [])).2)
    (f := ⟨⟨"legacy.db"⟩, "old code", .explicit ⟨"app"⟩ edge.sourceRef⟩) (by decide +kernel)
  obtain ⟨hedges, _, hrules⟩ := consider_aborts e m hfirst
  obtain ⟨hends, haborts, _, _⟩ := hedges edge _ _ hedge
  obtain ⟨avoiding, himplicit⟩ :=
    hrules .guardingImplicitly [⟨"codec"⟩] [] ⟨"legacy.db"⟩ rfl rfl (by decide +kernel) (by decide +kernel)
  refine ⟨_, _, avoiding, (hends [ModuleTable.edgeTo "later"]).1, haborts.pending, by decide +kernel, ?_, himplicit⟩
  exact haborts.warned.trans (by decide +kernel)

/-! ## Plugins that attribute what they forbid -/

/-- An engine whose plugins forbid every import, and say of each that it was met in a module of their own. -/
def Engine.withAccusingPlugins : Engine (List BuildRequest) where
  policy := .followingAll { recursion := fun r => .error ⟨r.name, "old code", .implicit ⟨"hooks"⟩⟩ }
  tree := .empty ⟨"/w"⟩
  builder := .ofTable []

/-- A forbidden import that plugins raise at a site of their own keeps it: the module ends at an error that names neither
the module nor the place of the edge, all else of the edge being as ever. -/
theorem consider_aborts_elsewhere :
    let e := Engine.withAccusingPlugins
    let m : ModuleRecord := { name := ⟨"app"⟩, file := ⟨⟨"/w/app.py"⟩⟩, kind := .source }
    let edge := ModuleTable.edgeTo "legacy.db"
    let f : ForbiddenImport := ⟨edge.name, "old code", .implicit ⟨"hooks"⟩⟩
    ∃ s', ends (e.considerEdge m edge) (.fresh []) = (.error (.forbidden f), s') ∧
      ends (e.consider m [edge]) (.fresh []) = (.error (.forbidden f), s') ∧ e.Aborts m edge (.fresh []) (.forbidden f) s' ∧
        f.site ≠ .explicit m.name edge.sourceRef := by
  intro e m edge f
  have hedge := ends_of_forbiddenImport? (x := e.considerEdge m edge) (s := .fresh []) (f := f) (by decide +kernel)
  have hnone : ends (([] : List ImportEdge).forM (e.considerEdge m)) (.fresh []) = (.ok ⟨⟩, .fresh []) := rfl
  exact ⟨_, hedge, Engine.ends_consider_error hnone hedge, Engine.aborts_of_considerEdge hedge, nofun⟩

end ImportClosure
