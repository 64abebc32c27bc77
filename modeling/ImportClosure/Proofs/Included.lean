import ImportClosure.Proofs.Passes

/-!
# Included edges

Edges that the policy includes whatever is remembered (`Engine.Includes`), when nothing can go wrong: an edge to a module
that is kept brings nothing in, and an edge to one that the builder gives brings it in. So what a pass over a single
module comes to can be told edge by edge.
-/

namespace ImportClosure

variable {σ : Type}

open Step

namespace Engine

variable {e : Engine σ} {s : Session σ} {m : ModuleRecord} {edge : ImportEdge} {q : Query}

/-- Whatever decision stands for a query, it includes the module. -/
def Includes (e : Engine σ) (q : Query) : Prop :=
  ∀ d, e.Stands q d → ∃ reason, d = .included reason

/-- An edge that the policy includes comes to what asking for its module comes to, if that succeeds. -/
theorem exists_recursed_of_considerEdge (hs : e.Remembers s) (hfound : edge.finding = .found)
    (hq : edge.query? = some q) (hinc : e.Includes q) :
    ∃ r s₁ result s₂, r.AsksFor q ∧ s.Alike s₁ ∧ Recursed e r true s₁ result s₂ ∧
      ∀ found, result = .ok found → ∃ s₃, ends (e.considerEdge m edge) s = (.ok (), s₃) ∧ s₂.Alike s₃ := by
  obtain ⟨file, hfile, rfl⟩ := Option.map_eq_some_iff.1 hq
  obtain ⟨d, s₁, hd⟩ := e.exists_ends_decide ⟨file, edge.name, edge.kind, false⟩ s
  obtain ⟨reason, rfl⟩ := hinc d (e.stands_of_decide hs hd)
  have halike : s.Alike s₁ :=
    Move.alike (a := .decided ⟨file, edge.name, edge.kind, false⟩) (congrArg Prod.snd hd).symm rfl
  let r : RecursionRequest := ⟨edge.name, file, edge.kind, some m.name, some edge.sourceRef, reason.text⟩
  obtain ⟨result, s₂, hr, hc⟩ := e.recursed r true s₁
  refine ⟨r, s₁, result, s₂, ⟨rfl, rfl, rfl⟩, halike, hc, ?_⟩
  rintro found rfl
  have hmissing : ends (reportMissing m edge) s = (.ok (), s) := by
    rw [reportMissing, hfound]
    rfl
  unfold considerEdge
  rw [ends_bind_ok hmissing]
  simp only [hfile]
  unfold attributed followEdge
  rw [ends_adapt, ends_bind_ok hd]
  simp only
  rw [ends_bind_ok hr]
  cases found with
  | none => exact ⟨s₂, rfl, ⟨rfl, rfl, rfl, rfl, rfl⟩⟩
  | some used => exact ⟨_, rfl, ⟨rfl, rfl, rfl, rfl, rfl⟩⟩

/-- Included edges to modules that are kept already bring nothing in. -/
theorem exists_alike_of_keeps (hs : e.Remembers s) (hfound : edge.finding = .found) (hq : edge.query? = some q)
    (hinc : e.Includes q) (hk : s.Keeps q.identity) :
    ∃ s', ends (e.considerEdge m edge) s = (.ok (), s') ∧ s.Alike s' := by
  obtain ⟨r, s₁, result, s₂, ⟨hname, hfile, _⟩, halike, hc, hok⟩ :=
    exists_recursed_of_considerEdge (m := m) hs hfound hq hinc
  obtain ⟨kept, hkept⟩ := Option.isSome_iff_exists.1 hk
  have hget : s₁.cache.get? r.name r.file = some kept := by
    rw [halike.cache, hname, hfile]
    exact hkept
  cases hc with
  | known h =>
    obtain ⟨s₃, h₃, halike₃⟩ := hok _ rfl
    exact ⟨s₃, h₃, halike.trans halike₃⟩
  | refused h | failed _ h | passedOver _ h | built _ h =>
    rw [hget] at h
    cases h

/-- An included edge to a module that the builder gives brings it in, if it is not kept and no plugin forbids it. -/
theorem exists_of_builds (hs : e.Remembers s) (hfound : edge.finding = .found) (hq : edge.query? = some q)
    (hinc : e.Includes q) (hp : ∀ r, e.policy.plugins.recursion r = .ok ()) (hk : ¬ s.Keeps q.identity)
    {o : BuildOutcome} (ho : (e.builder.build ⟨q.name, q.file, q.kind, false, true⟩ s.builder).1.result = .ok (some o)) :
    ∃ s', ends (e.considerEdge m edge) s = (.ok (), s') ∧
      s.Gains ⟨(s.cache.add o.record).1, o.uses⟩ o.newlyBuilt true s' ∧
      s'.builder = (e.builder.build ⟨q.name, q.file, q.kind, false, true⟩ s.builder).2 := by
  obtain ⟨r, s₁, result, s₂, ⟨hname, hfile, hkind⟩, halike, hc, hok⟩ :=
    exists_recursed_of_considerEdge (m := m) hs hfound hq hinc
  have hbuild : r.toBuild = ⟨q.name, q.file, q.kind, false, true⟩ := by
    rw [RecursionRequest.toBuild, hname, hfile, hkind]
  have hres : (e.builder.build r.toBuild s₁.builder).1.result = .ok (some o) := by rw [hbuild, halike.builder, ho]
  have hnone : s₁.cache.get? r.name r.file = none := by
    rw [halike.cache, hname, hfile, ← Option.not_isSome_iff_eq_none]
    exact hk
  obtain ⟨events, rfl, rfl⟩ : ∃ events, result = .ok (some (s₁.cache.add o.record).1) ∧
      s₂ = (s₁.built (e.builder.build r.toBuild s₁.builder).2 events o).accepted o r.reason true := by
    cases hc with
    | known h =>
      rw [hnone] at h
      cases h
    | refused _ h =>
      rw [hp] at h
      cases h
    | failed _ _ h | passedOver _ _ h =>
      rw [hres] at h
      cases h
    | built events _ h =>
      rw [hres] at h
      cases h
      exact ⟨events, rfl, rfl⟩
  obtain ⟨s₃, h₃, halike₃⟩ := hok _ rfl
  refine ⟨s₃, h₃, ?_, ?_⟩
  · rcases hc.same_or_gains with ⟨_, hgot⟩ | ⟨o', ho', _, hg, _⟩
    · refine absurd (hgot _ rfl).2 ?_
      rw [Session.Keeps, Option.not_isSome_iff_eq_none]
      exact hnone
    · rw [hres] at ho'
      cases ho'
      rw [halike.cache] at hg
      exact hg.of_same halike.same halike₃.same
  · rw [halike₃.builder, ← hbuild, ← halike.builder]
    rfl

/-- Included edges to modules that are kept bring nothing in, however many there are. -/
theorem exists_alike_of_forM {edges : List ImportEdge} (hs : e.Remembers s)
    (h : ∀ edge ∈ edges, edge.finding = .found ∧ ∃ q, edge.query? = some q ∧ e.Includes q ∧ s.Keeps q.identity) :
    ∃ s', ends (edges.forM (e.considerEdge m)) s = (.ok ⟨⟩, s') ∧ s.Alike s' ∧ e.Remembers s' := by
  induction edges generalizing s with
  | nil => exact ⟨s, rfl, ⟨rfl, rfl, rfl, rfl, rfl⟩, hs⟩
  | cons edge edges ih =>
    obtain ⟨hfound, q, hq, hinc, hk⟩ := h edge List.mem_cons_self
    obtain ⟨s₁, h₁, halike⟩ := exists_alike_of_keeps (m := m) hs hfound hq hinc hk
    have hs₁ : e.Remembers s₁ := by
      have hleads : Leads e (Action.Follows e m fun _ => True) (e.considerEdge m edge) s _ :=
        considerEdge_leads hs fun _ _ => trivial
      have hmoves := hleads.1
      rw [h₁] at hmoves
      exact hs.moves hmoves
    obtain ⟨s₂, h₂, halike₂, hs₂⟩ := ih hs₁ fun edge' hmem => by
      obtain ⟨hfound', q', hq', hinc', hk'⟩ := h edge' (List.mem_cons_of_mem edge hmem)
      refine ⟨hfound', q', hq', hinc', ?_⟩
      rwa [Session.Keeps, halike.cache]
    refine ⟨s₂, ?_, halike.trans halike₂, hs₂⟩
    exact (ends_bind_ok h₁ fun _ => edges.forM (e.considerEdge m)).trans h₂

/-- Without implicit imports a pass over one module is over when its edges are. -/
theorem ends_runPass_of_singleton {uses : List ImportEdge} {s' : Session σ} (hpending : s.pending = [⟨m, uses⟩])
    (hp : e.policy.plugins.implicitImports m = .ok [])
    (h : ends (uses.forM (e.considerEdge m)) { s with pending := [] } = (.ok ⟨⟩, s')) :
    ∃ c, ends e.runPass s = (.ok c, s') := by
  have hconsume : ends (s.pending.forM e.consume) { s with pending := [] } = (.ok ⟨⟩, s') := by
    have himplicit : ends (e.implicitImports m) s' = (.ok [], s') := by
      rw [implicitImports, hp]
      rfl
    have hconsumed : ends (e.consume ⟨m, uses⟩) { s with pending := [] } = (.ok ⟨⟩, s') := by
      rw [consume, consider, ends_bind_ok h, ends_bind_ok himplicit]
      rfl
    rw [hpending]
    exact ends_bind_ok hconsumed fun _ => (Pure.pure ⟨⟩ : Step σ PUnit)
  rw [ends_runPass, hconsume]
  exact ⟨_, rfl⟩

end Engine

namespace Policy

/-- The policy that follows all imports. -/
def followingAll (plugins : Plugins) : Policy :=
  { options := { followAll := true }, followTo := [], nofollowTo := [], bytecodeModules := [], plugins }

/-- It includes every source but the main module. -/
theorem includes_followingAll {e : Engine σ} (he : e.policy = followingAll {}) {q : Query} (hname : q.name ≠ .main)
    (hkind : q.kind = .source) : e.Includes q := by
  rintro d ⟨q', hk, rfl⟩
  have hname' : q'.name ≠ .main := by rwa [show q'.name = q.name from congrArg QueryKey.name hk]
  have hkind' : q'.kind = .source := (congrArg QueryKey.kind hk).trans hkind
  rw [he]
  cases hx : q'.explicit <;>
    simp [followingAll, decide, rules, mainRule, pluginRule, extensionRule, profileRule, neverFollowRule,
      alwaysFollowRule, explicitRule, stdlibRule, followAllRule, hname', hkind', hx, List.findSome?_cons,
      ModuleName.isMain, FollowOptions.inPackageMode, NamePatterns.firstHit]

end Policy

end ImportClosure
