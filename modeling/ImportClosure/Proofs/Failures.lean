import ImportClosure.Proofs.Passes
import Mathlib.Logic.Relation

/-!
# What ends a pass

The errors that a pass may end in, and whom they are attributed to (`Failure`). A pass consumes the queued modules one
after the other and ends at the first module that cannot be asked for: the plugins refuse it, or the builder fails. The
error of an import names the module that imports and the place of the import, that of a declared import only the module;
an error that names a place already keeps it.
-/

namespace ImportClosure

variable {σ : Type}

open Step

namespace Engine

/-- Why a module cannot be asked for: the plugins refuse it, or the builder fails. -/
inductive Refuses (e : Engine σ) (r : RecursionRequest) : Error → Prop where
  | plugins {what : ForbiddenImport} (h : e.policy.plugins.recursion r = .error what) : Refuses e r (.forbidden what)
  | builder {err : Error} (x : σ) (h : (e.builder.build r.toBuild x).1.result = .error err) : Refuses e r err

/-- A query is refused in a session: the policy has decided to include its module, and the module cannot be asked for. -/
def RefusesQuery (e : Engine σ) (s : Session σ) (q : Query) (err : Error) : Prop :=
  (∃ reason, s.decisions.lookup q.key = some (.included reason)) ∧ ∃ r, r.AsksFor q ∧ e.Refuses r err

end Engine

/-- What consuming a module fails with, and whom that is attributed to. -/
inductive Failure (e : Engine σ) (m : PendingModule) (s : Session σ) : Error → Prop where
  /-- An import cannot be followed. -/
  | atImport {edge : ImportEdge} {q : Query} {err : Error} (he : edge ∈ m.uses) (hq : edge.query? = some q)
      (h : e.RefusesQuery s q err) : Failure e m s (err.atImport m.record.name edge.sourceRef)
  /-- The plugins refuse to declare imports. -/
  | declaring {what : ForbiddenImport} (h : e.policy.plugins.implicitImports m.record = .error what) :
      Failure e m s ((Error.forbidden what).implicitIn m.record.name)
  /-- An import that the plugins declare cannot be followed. -/
  | implicit {imports : List ImplicitImport} {i : ImplicitImport} {q : Query} {err : Error}
      (hi : e.policy.plugins.implicitImports m.record = .ok imports) (hmem : i ∈ imports) (hq : i.query? = some q)
      (h : e.RefusesQuery s q err) : Failure e m s (err.implicitIn m.record.name)

namespace Engine

variable {e : Engine σ} {s s' : Session σ} {err : Error}

/-- A module that was asked for in vain is refused, and no decision has changed. -/
theorem refuses_of_recursed {r : RecursionRequest} {signalled : Bool} (h : Recursed e r signalled s (.error err) s') :
    e.Refuses r err ∧ s'.decisions = s.decisions := by
  cases h with
  | refused _ hp => exact ⟨.plugins hp, rfl⟩
  | failed events _ hb => exact ⟨.builder _ hb, rfl⟩

/-- Asking for a module fails if it is refused, and changes no decision. -/
theorem refuses_of_recurse {r : RecursionRequest} {signalled : Bool}
    (h : ends (e.recurse r signalled) s = (.error err, s')) : e.Refuses r err ∧ s'.decisions = s.decisions := by
  obtain ⟨result, s₁, hr, hc⟩ := e.recursed r signalled s
  obtain ⟨rfl, rfl⟩ := Prod.mk.inj (hr.symm.trans h)
  exact refuses_of_recursed hc

/-- Following an edge fails where its target is asked for, behind the decision to include it. -/
theorem recursed_of_followEdge {m : ModuleRecord} {name : ModuleName} {file : ModuleFile} {kind : ModuleKind}
    {at_ : SourceRef} {tag : UsageTag} (h : ends (e.followEdge m name file kind at_ tag) s = (.error err, s')) :
    ∃ reason s₁, ends (e.decide ⟨file, name, kind, false⟩) s = (.ok (.included reason), s₁) ∧
      Recursed e ⟨name, file, kind, some m.name, some at_, reason.text⟩ true s₁ (.error err) s' := by
  obtain ⟨d, s₁, hd⟩ := e.exists_ends_decide ⟨file, name, kind, false⟩ s
  unfold followEdge at h
  rw [ends_bind_ok hd] at h
  cases d with
  | included reason =>
    rcases error_of_ends_bind h with hr | ⟨found, s₂, _, hu⟩
    · obtain ⟨result, s₂, hr', hc⟩ := e.recursed ⟨name, file, kind, some m.name, some at_, reason.text⟩ true s₁
      obtain ⟨rfl, rfl⟩ := Prod.mk.inj (hr'.symm.trans hr)
      exact ⟨reason, s₁, hd, hc⟩
    · cases found <;> cases hu
  | excluded reason => cases h
  | undecided reason => cases h

/-- Following an edge fails if its target is included and refused. -/
theorem refusesQuery_of_followEdge {m : ModuleRecord} {name : ModuleName} {file : ModuleFile} {kind : ModuleKind}
    {at_ : SourceRef} {tag : UsageTag} (h : ends (e.followEdge m name file kind at_ tag) s = (.error err, s')) :
    e.RefusesQuery s' ⟨file, name, kind, false⟩ err := by
  obtain ⟨reason, s₁, hd, hc⟩ := recursed_of_followEdge h
  obtain ⟨hrefuses, hdecisions⟩ := refuses_of_recursed hc
  refine ⟨⟨reason, ?_⟩, _, ⟨rfl, rfl, rfl⟩, hrefuses⟩
  rw [hdecisions]
  exact lookup_of_decide hd

/-- An error of an attributed step is one that has been given a site. -/
theorem error_of_attributed {α : Type} {site : ImportSite} {x : Step σ α}
    (h : ends (attributed site x) s = (.error err, s')) :
    ∃ err', ends x s = (.error err', s') ∧ err = err'.withSite site := by
  unfold attributed at h
  rw [ends_adapt] at h
  rcases hx : ends x s with ⟨err' | a, s₁⟩ <;> rw [hx] at h
  · obtain ⟨herr, rfl⟩ := Prod.mk.inj h
    cases herr
    exact ⟨err', rfl, rfl⟩
  · cases (Prod.mk.inj h).1

/-- An import edge fails where its target is refused, and the error is attributed to the edge. -/
theorem error_of_considerEdge {m : ModuleRecord} {edge : ImportEdge}
    (h : ends (e.considerEdge m edge) s = (.error err, s')) :
    ∃ q err', edge.query? = some q ∧ e.RefusesQuery s' q err' ∧ err = err'.atImport m.name edge.sourceRef := by
  unfold considerEdge at h
  rcases error_of_ends_bind h with hmissing | ⟨_, s₁, _, hfollow⟩
  · unfold reportMissing at hmissing
    split at hmissing <;> cases hmissing
  · cases hfile : edge.file with
    | none =>
      simp only [hfile] at hfollow
      cases hfollow
    | some file =>
      simp only [hfile] at hfollow
      obtain ⟨err', hx, rfl⟩ := error_of_attributed hfollow
      exact ⟨_, err', by simp [ImportEdge.query?, hfile], refusesQuery_of_followEdge hx, rfl⟩

/-- A declared import fails where its target is refused, and the error is attributed to the module that needs it. -/
theorem error_of_considerImplicit {m : ModuleRecord} {i : ImplicitImport}
    (h : ends (e.considerImplicit m i) s = (.error err, s')) :
    ∃ q err', i.query? = some q ∧ e.RefusesQuery s' q err' ∧ err = err'.implicitIn m.name := by
  unfold considerImplicit at h
  cases hfile : i.file with
  | none =>
    simp only [hfile] at h
    cases h
  | some file =>
    simp only [hfile] at h
    obtain ⟨err', hx, rfl⟩ := error_of_attributed h
    exact ⟨_, err', by simp [ImplicitImport.query?, hfile], refusesQuery_of_followEdge hx, rfl⟩

/-- Whatever consuming a module fails with is attributed to the import that it failed at. -/
theorem failure_of_consume {m : PendingModule} (h : ends (e.consume m) s = (.error err, s')) : Failure e m s' err := by
  unfold consume consider at h
  rcases error_of_ends_bind h with hedges | ⟨_, s₁, _, hrest⟩
  · obtain ⟨edge, hmem, s₁, hedge⟩ := error_of_ends_forM hedges
    obtain ⟨q, err', hq, hrefused, rfl⟩ := error_of_considerEdge hedge
    exact .atImport hmem hq hrefused
  · cases hi : e.policy.plugins.implicitImports m.record with
    | error what =>
      simp only [implicitImports, hi] at hrest
      cases hrest
      exact .declaring hi
    | ok imports =>
      have himports : ends (e.implicitImports m.record) s₁ = (.ok imports, s₁) := by
        unfold implicitImports
        rw [hi]
        rfl
      rw [ends_bind_ok himports] at hrest
      obtain ⟨i, hmem, s₂, himplicit⟩ := error_of_ends_forM hrest
      obtain ⟨q, err', hq, hrefused, rfl⟩ := error_of_considerImplicit himplicit
      exact .implicit hi hmem hq hrefused

/-- A pass fails at one of the modules that were queued. -/
theorem failure_of_runPass (h : ends e.runPass s = (.error err, s')) : ∃ m ∈ s.pending, Failure e m s' err := by
  rw [ends_runPass] at h
  rcases hc : ends (s.pending.forM e.consume) { s with pending := [] } with ⟨err' | _, s₁⟩ <;> rw [hc] at h
  · cases h
    obtain ⟨m, hmem, s₂, hm⟩ := error_of_ends_forM hc
    exact ⟨m, hmem, failure_of_consume hm⟩
  · cases h

/-! ## Runs of passes -/

/-- One session is left by a pass over another that succeeds. -/
def Passed (e : Engine σ) (s s' : Session σ) : Prop :=
  ∃ c, ends e.runPass s = (.ok c, s')

/-- Passes fail at the first pass that does. -/
theorem exists_of_runPasses_error {bound : Nat} (h : ends (e.runPasses bound) s = (.error err, s')) :
    ∃ s₁, Relation.ReflTransGen e.Passed s s₁ ∧ ends e.runPass s₁ = (.error err, s') := by
  induction bound generalizing s with
  | zero => cases h
  | succ bound ih =>
    rw [ends_runPasses_succ] at h
    rcases hpass : ends e.runPass s with ⟨err' | c, s₁⟩ <;> simp only [hpass] at h
    · cases h
      exact ⟨s, .refl, hpass⟩
    split at h
    · cases h
    · rcases hrest : ends (e.runPasses bound) s₁ with ⟨err' | answer, s₂⟩ <;> simp only [hrest] at h
      · cases h
        obtain ⟨s₃, hs₃, hfail⟩ := ih hrest
        exact ⟨s₃, .head ⟨c, hpass⟩ hs₃, hfail⟩
      · cases h

/-- So does a run to the fixed point. -/
theorem exists_of_runToFixedPoint_error {bound : Nat} (h : ends (e.runToFixedPoint bound) s = (.error err, s')) :
    ∃ s₁, Relation.ReflTransGen e.Passed s s₁ ∧ ends e.runPass s₁ = (.error err, s') := by
  unfold runToFixedPoint at h
  rcases error_of_ends_bind h with hruns | ⟨passes, s₁, _, hreport⟩
  · exact exists_of_runPasses_error hruns
  · cases passes <;> cases hreport

end Engine

end ImportClosure
