import ImportClosure.Proofs.Walking

/-!
# Steps that do the same

Two steps are alike if in sessions that differ in their logs only they come to the same, value or error, and leave sessions
that differ in their logs only (`Step.Alike`). No step of a walk looks at what was noted before, so each is like itself;
decisions and requests about two spellings of one file are alike where nothing asks how the file is spelled.
-/

namespace ImportClosure

variable {σ : Type}

open Step

/-- Two sessions are the same but for the events and the diagnostics that were noted. -/
def Session.SameButLog (s s' : Session σ) : Prop :=
  ∃ events diagnostics, s' = { s with events, diagnostics }

namespace Session.SameButLog

variable {s s₁ s₂ : Session σ}

/-- A session is the same as itself, whatever it has logged. -/
theorem refl (s : Session σ) : s.SameButLog s :=
  ⟨s.events, s.diagnostics, rfl⟩

/-- Whether sessions are the same but for their logs does not depend on their order. -/
theorem symm (h : s.SameButLog s₁) : s₁.SameButLog s := by
  obtain ⟨_, _, rfl⟩ := h
  exact ⟨s.events, s.diagnostics, rfl⟩

/-- Two sessions that are the same as a third but for their logs are so to each other. -/
theorem trans (h : s.SameButLog s₁) (h' : s₁.SameButLog s₂) : s.SameButLog s₂ := by
  obtain ⟨_, _, rfl⟩ := h
  obtain ⟨events, diagnostics, rfl⟩ := h'
  exact ⟨events, diagnostics, rfl⟩

/-- An event that is noted goes to the log only. -/
theorem note (s : Session σ) (event : Event) : s.SameButLog (s.note event) :=
  ⟨event :: s.events, s.diagnostics, rfl⟩

/-- A diagnostic goes to the log only. -/
theorem diagnose (s : Session σ) (d : Diagnostic) : s.SameButLog (s.diagnose d) :=
  ⟨_, _, rfl⟩

end Session.SameButLog

/-- Two steps come to the same and leave the same behind, but for the logs. -/
def Step.Alike {α : Type} (x y : Step σ α) : Prop :=
  ∀ s s', s.SameButLog s' → (ends x s).1 = (ends y s').1 ∧ (ends x s).2.SameButLog (ends y s').2

/-- A step does nothing but note something. -/
def Step.OnlyNotes (x : Step σ Unit) : Prop :=
  ∀ s, ∃ s', ends x s = (.ok (), s') ∧ s.SameButLog s'

namespace Step.Alike

variable {α β : Type} {x y z : Step σ α}

/-- Whether steps are alike does not depend on their order. -/
theorem symm (h : Alike x y) : Alike y x := by
  intro s s' hs
  obtain ⟨heq, hlog⟩ := h s' s hs.symm
  exact ⟨heq.symm, hlog.symm⟩

/-- Two steps that are alike to a third are so to each other. -/
theorem trans (h : Alike x y) (h' : Alike y z) : Alike x z := by
  intro s s' hs
  obtain ⟨heq, hlog⟩ := h s s' hs
  obtain ⟨heq', hlog'⟩ := h' s' s' (.refl s')
  exact ⟨heq.trans heq', hlog.trans hlog'⟩

/-- Coming to a value is alike in all sessions. -/
theorem pure (a : α) : Alike (Pure.pure a : Step σ α) (Pure.pure a) :=
  fun _ _ hs => ⟨rfl, hs⟩

/-- Ending in an error is alike in all sessions. -/
theorem throw (err : Error) : Alike (MonadExcept.throw err : Step σ α) (MonadExcept.throw err) :=
  fun _ _ hs => ⟨rfl, hs⟩

/-- Two updates are alike if they leave sessions that differ in their logs so. -/
theorem update {f g : Session σ → Session σ} (h : ∀ s s', s.SameButLog s' → (f s).SameButLog (g s')) :
    Alike (Engine.update f) (Engine.update g) :=
  fun s s' hs => ⟨rfl, h s s' hs⟩

/-- Steps behind steps that are alike are alike if they are so for every value. -/
theorem bind {f g : α → Step σ β} (h : Alike x y) (hf : ∀ a, Alike (f a) (g a)) : Alike (x >>= f) (y >>= g) := by
  intro s s' hs
  obtain ⟨heq, hlog⟩ := h s s' hs
  rcases hx : ends x s with ⟨result, s₁⟩
  rcases hy : ends y s' with ⟨result', s₁'⟩
  rw [hx, hy] at heq hlog
  cases heq
  cases result with
  | error err =>
    rw [ends_bind_error hx, ends_bind_error hy]
    exact ⟨rfl, hlog⟩
  | ok a =>
    rw [ends_bind_ok hx, ends_bind_ok hy]
    exact hf a s₁ s₁' hlog

/-- An error ends the steps behind it. -/
theorem throw_bind (err : Error) (f g : α → Step σ β) :
    Alike (MonadExcept.throw err >>= f) (MonadExcept.throw err >>= g) := by
  intro s s' hs
  rw [ends_bind_error (ends_throw err s), ends_bind_error (ends_throw err s')]
  exact ⟨rfl, hs⟩

/-- What is done with sessions that are the same but for their logs. -/
theorem get_bind {f g : Session σ → Step σ β} (h : ∀ s s', s.SameButLog s' →
    (ends (f s) s).1 = (ends (g s') s').1 ∧ (ends (f s) s).2.SameButLog (ends (g s') s').2) :
    Alike (get >>= f) (get >>= g) := by
  intro s s' hs
  rw [ends_bind_ok (ends_get s), ends_bind_ok (ends_get s')]
  exact h s s' hs

/-- A step that only notes something makes no difference. -/
theorem of_notes {n : Step σ Unit} (hn : OnlyNotes n) {f : Unit → Step σ β} {y : Step σ β} (h : Alike (f ()) y) :
    Alike (n >>= f) y := by
  intro s s' hs
  obtain ⟨s₁, hends, hlog⟩ := hn s
  rw [ends_bind_ok hends]
  exact h s₁ s' (hlog.symm.trans hs)

/-- Two steps that only note something are alike. -/
theorem notes {n n' : Step σ Unit} (hn : OnlyNotes n) (hn' : OnlyNotes n') : Alike n n' := by
  intro s s' hs
  obtain ⟨s₁, hends, hlog⟩ := hn s
  obtain ⟨s₁', hends', hlog'⟩ := hn' s'
  rw [hends, hends']
  exact ⟨rfl, (hlog.symm.trans hs).trans hlog'⟩

end Step.Alike

namespace Engine

variable {e : Engine σ}

/-! ## Notes -/

/-- Tracing only notes something. -/
theorem onlyNotes_trace (event : Event) : OnlyNotes (e.trace event) := by
  intro s
  unfold trace
  split
  · exact ⟨_, rfl, .note s event⟩
  · exact ⟨s, rfl, .refl s⟩

/-- A diagnostic only notes something. -/
theorem onlyNotes_diagnose (d : Diagnostic) : OnlyNotes (update fun s : Session σ => s.diagnose d) :=
  fun s => ⟨_, rfl, .diagnose s d⟩

/-- Reporting an extension only notes something. -/
theorem onlyNotes_reportExtension (name : ModuleName) (kind : ModuleKind) : OnlyNotes (e.reportExtension name kind) := by
  unfold reportExtension
  split
  · exact onlyNotes_diagnose _
  · exact fun s => ⟨s, rfl, .refl s⟩

/-! ## Decisions and requests -/

/-- Queries with one key are decided alike if the policy renders the same for both. -/
theorem decide_alike {q q' : Query} (hkey : q.key = q'.key) (hdecide : e.policy.decide q = e.policy.decide q') :
    Alike (e.decide q) (e.decide q') := by
  rintro s _ ⟨events, diagnostics, rfl⟩
  have hdecisions : { s with events, diagnostics }.decisions = s.decisions := rfl
  rcases e.ends_decide q s with ⟨d, hd, hq⟩ | ⟨hnone, events₁, hq⟩ <;>
    rcases e.ends_decide q' { s with events, diagnostics } with ⟨d', hd', hq'⟩ | ⟨hnone', events₂, hq'⟩ <;>
    rw [hq, hq']
  · rw [← hkey, hdecisions, hd] at hd'
    cases hd'
    exact ⟨rfl, events, diagnostics, rfl⟩
  · rw [← hkey, hdecisions, hd] at hnone'
    cases hnone'
  · rw [← hkey, hdecisions, hnone] at hd'
    cases hd'
  · rw [hkey, hdecide]
    exact ⟨rfl, events₂, diagnostics, rfl⟩

/-- Two builds come to the same, whatever the builder remembers. -/
def BuildsAlike (e : Engine σ) (r r' : BuildRequest) : Prop :=
  ∀ x, (e.builder.build r x).1.result = (e.builder.build r' x).1.result ∧
    (e.builder.build r x).2 = (e.builder.build r' x).2

theorem BuildsAlike.refl (r : BuildRequest) : e.BuildsAlike r r :=
  fun _ => ⟨rfl, rfl⟩

/-- Requests that are built alike may be put in place of each other. -/
theorem build_alike {r r' : BuildRequest} (h : e.BuildsAlike r r') : Alike (e.build r) (e.build r') := by
  rintro s _ ⟨events, diagnostics, rfl⟩
  obtain ⟨hresult, hbuilder⟩ := h s.builder
  obtain ⟨events₁, hr⟩ := e.ends_build r s
  obtain ⟨events₂, hr'⟩ := e.ends_build r' { s with events, diagnostics }
  rw [hr, hr', ← show (e.builder.build r s.builder).1.result = (e.builder.build r' s.builder).1.result from hresult]
  rw [hbuilder]
  rcases (e.builder.build r s.builder).1.result with err | _ | o
  · exact ⟨rfl, events₂, diagnostics, rfl⟩
  · exact ⟨rfl, events₂, diagnostics, rfl⟩
  · exact ⟨rfl, events₂, diagnostics, rfl⟩

/-- Two requests ask for one module, for the same reason, and neither the plugins nor the builder tell them apart. -/
structure RequestsAlike (e : Engine σ) (r r' : RecursionRequest) : Prop where
  identity : r.identity = r'.identity
  reason : r.reason = r'.reason
  recursion : e.policy.plugins.recursion r = e.policy.plugins.recursion r'
  builds : e.BuildsAlike r.toBuild r'.toBuild

theorem RequestsAlike.refl (r : RecursionRequest) : e.RequestsAlike r r :=
  ⟨rfl, rfl, rfl, .refl _⟩

/-- Accepting what was built does not look at the log. -/
theorem accept_alike (o : BuildOutcome) (reason : String) (signalled : Bool) :
    Alike (accept (σ := σ) o reason signalled) (accept o reason signalled) := by
  rintro s _ ⟨events, diagnostics, rfl⟩
  rw [ends_accept, ends_accept]
  exact ⟨rfl, events, diagnostics, rfl⟩

/-- Requests that lead to builds alike are recursed into alike. -/
theorem recurse_alike {r r' : RecursionRequest} (h : e.RequestsAlike r r') (signalled : Bool) :
    Alike (e.recurse r signalled) (e.recurse r' signalled) := by
  refine .get_bind fun s s' hs => ?_
  have hget : s'.cache.get? r'.name r'.file = s.cache.get? r.name r.file := by
    obtain ⟨events, diagnostics, rfl⟩ := hs
    exact congrArg s.cache.find? h.identity.symm
  rw [hget]
  cases s.cache.get? r.name r.file with
  | some kept => exact ⟨rfl, hs⟩
  | none =>
    rw [← h.recursion]
    cases e.policy.plugins.recursion r with
    | error what => exact ⟨rfl, hs⟩
    | ok _ =>
      have hnote : OnlyNotes (update fun s : Session σ => s.note (.recursion r)) := fun s => ⟨_, rfl, .note s _⟩
      have hnote' : OnlyNotes (update fun s : Session σ => s.note (.recursion r')) := fun s => ⟨_, rfl, .note s _⟩
      refine Alike.bind (.notes hnote hnote') (fun _ => .bind (build_alike h.builds) fun found => ?_) s s' hs
      cases found with
      | none => exact .pure _
      | some o =>
        rw [h.reason]
        exact .bind (accept_alike o _ signalled) fun _ => .pure _

/-- Requests that lead to builds alike are fetched alike. -/
theorem fetch_alike {r r' : RecursionRequest} (h : e.RequestsAlike r r') : Alike (e.fetch r) (e.fetch r') := by
  refine .bind (recurse_alike h false) fun found => ?_
  cases found with
  | none => exact .pure _
  | some m =>
    refine .bind (.update fun s s' hs => ?_) fun _ => .pure _
    obtain ⟨events, diagnostics, rfl⟩ := hs
    exact ⟨events, diagnostics, rfl⟩

/-! ## Walks -/

/-- Making a module a root does not look at the log. -/
theorem addRoot_alike (m : ModuleRecord) :
    Alike (update fun s : Session σ => s.addRoot m) (update fun s => s.addRoot m) := by
  refine .update fun s s' hs => ?_
  obtain ⟨events, diagnostics, rfl⟩ := hs
  exact ⟨events, diagnostics, rfl⟩

/-- A path that could not be included is only noted. -/
theorem includeFailed_alike (p q : Path) : Alike (includeFailed (σ := σ) p) (includeFailed q) :=
  .bind (.notes (onlyNotes_diagnose _) (onlyNotes_diagnose _)) fun _ => .pure _

/-- Opening a package does not look at the log. -/
theorem openPackage_alike (m : ModuleRecord) : Alike (openPackage (σ := σ) m) (openPackage m) := by
  unfold openPackage
  split
  · exact .pure _
  · refine .bind (addRoot_alike m) fun _ => ?_
    split
    · exact .pure _
    · exact .throw _

/-- Listing a directory does not look at the log. -/
theorem namesIn_alike (dir : Path) : Alike (e.namesIn dir) (e.namesIn dir) := by
  unfold namesIn
  split
  · exact .pure _
  · exact .throw _

/-- Registering a module that was included does not look at the log. -/
theorem registerIncluded_alike (m : ModuleRecord) : Alike (e.registerIncluded m) (e.registerIncluded m) := by
  have hkeep : Alike (update fun s : Session σ => (s.keep m).2) (update fun s => (s.keep m).2) := by
    refine .update fun s s' hs => ?_
    obtain ⟨events, diagnostics, rfl⟩ := hs
    exact ⟨events, diagnostics, rfl⟩
  unfold registerIncluded
  refine .bind (.notes (onlyNotes_trace _) (onlyNotes_trace _)) fun _ => .bind hkeep fun _ => ?_
  dsimp only
  split
  · split
    · exact .throw_bind _ _ _
    · exact .bind (openPackage_alike m) fun _ => .bind (.notes (onlyNotes_trace _) (onlyNotes_trace _)) fun _ =>
        .bind (namesIn_alike _) fun _ => .pure _
  · split
    · exact .bind (addRoot_alike m) fun _ => .pure _
    · exact .pure _

/-- Takes in the module that a query is about, if the policy includes it. -/
def takeIn (e : Engine σ) (q : Query) : Step σ (List WalkItem) := do
  match ← e.decide q with
  | .included reason =>
    match ← e.fetch ⟨q.name, q.file, q.kind, none, none, reason.text⟩ with
    | some m => e.registerIncluded m
    | none => includeFailed q.file.path
  | .excluded reason | .undecided reason =>
    update fun s => s.diagnose (.inclusionDenied q.name reason.text)
    return []

/-- What two queries are about is taken in alike if neither the policy nor the plugins nor the builder tell them apart. -/
theorem takeIn_alike {q q' : Query} (hkey : q.key = q'.key) (hdecide : e.policy.decide q = e.policy.decide q')
    (hrequest : ∀ reason, e.RequestsAlike ⟨q.name, q.file, q.kind, none, none, reason⟩
      ⟨q'.name, q'.file, q'.kind, none, none, reason⟩) : Alike (e.takeIn q) (e.takeIn q') := by
  refine .bind (decide_alike hkey hdecide) fun d => ?_
  cases d with
  | included reason =>
    refine .bind (fetch_alike (hrequest reason.text)) fun found => ?_
    cases found with
    | some m => exact registerIncluded_alike m
    | none => exact includeFailed_alike _ _
  | excluded | undecided =>
    exact .bind (.notes (onlyNotes_diagnose _) (onlyNotes_diagnose _)) fun _ => .pure _

theorem takeIn_alike_self (q : Query) : Alike (e.takeIn q) (e.takeIn q) :=
  takeIn_alike rfl rfl fun _ => .refl _

/-- Walking a path takes in the module that is there. -/
theorem walkSingle_alike_takeIn {path : Path} {package : Option ModuleName} {q : Query}
    (hq : e.tree.query? path package = some q) : Alike (e.walkSingle path package) (e.takeIn q) := by
  obtain ⟨⟨bare, kind⟩, hat, rfl⟩ := Option.map_eq_some_iff.1 hq
  unfold walkSingle
  refine .of_notes (onlyNotes_trace _) ?_
  simp only [hat]
  exact .of_notes (onlyNotes_reportExtension _ _) (takeIn_alike_self _)

/-- Walking a path where there is no module does nothing. -/
theorem walkSingle_alike_pure {path : Path} {package : Option ModuleName} (hq : e.tree.query? path package = none) :
    Alike (e.walkSingle path package) (pure []) := by
  unfold walkSingle
  refine .of_notes (onlyNotes_trace _) ?_
  simp only [Option.map_eq_none_iff.1 hq]
  exact .pure _

/-- Walking a path does not look at the log. -/
theorem walkSingle_alike (path : Path) (package : Option ModuleName) :
    Alike (e.walkSingle path package) (e.walkSingle path package) := by
  cases hq : e.tree.query? path package with
  | none => exact (walkSingle_alike_pure hq).trans (walkSingle_alike_pure hq).symm
  | some q => exact (walkSingle_alike_takeIn hq).trans (walkSingle_alike_takeIn hq).symm

/-- What a path stands for does not depend on the log. -/
theorem walkPath_alike (path : Path) (package : Option ModuleName) :
    Alike (e.walkPath path package) (e.walkPath path package) := by
  unfold walkPath
  refine .bind (.notes (onlyNotes_trace _) (onlyNotes_trace _)) fun _ => ?_
  split
  · exact .pure _
  · split
    · exact includeFailed_alike _ _
    · exact .bind (namesIn_alike _) fun _ => .pure _

/-- What a pattern stands for does not depend on the log. -/
theorem walkPattern_alike (text : String) : Alike (e.walkPattern text) (e.walkPattern text) := by
  unfold walkPattern
  refine .bind (.notes (onlyNotes_trace _) (onlyNotes_trace _)) fun _ => ?_
  dsimp only
  split
  · exact .throw_bind _ _ _
  cases FilePattern.read text with
  | error fault => exact .throw _
  | ok pattern =>
    dsimp only
    split
    · exact .bind (.notes (onlyNotes_diagnose _) (onlyNotes_diagnose _)) fun _ => .pure _
    · exact .pure _

/-- Expanding an item does not look at the log. -/
theorem expand_alike (item : WalkItem) : Alike (e.expand item) (e.expand item) := by
  cases item with
  | single path package => exact walkSingle_alike path package
  | path path package => exact walkPath_alike path package
  | pattern text => exact walkPattern_alike text

/-- Walking a stack of items does not look at the log. -/
theorem walkStack_alike (bound : Nat) (items : List WalkItem) :
    Alike (e.walkStack bound items) (e.walkStack bound items) := by
  induction bound generalizing items with
  | zero =>
    cases items with
    | nil => exact .pure _
    | cons item rest => exact .throw _
  | succ bound ih =>
    cases items with
    | nil => exact .pure _
    | cons item rest => exact .bind (expand_alike item) fun children => ih (children ++ rest)

end Engine

end ImportClosure
