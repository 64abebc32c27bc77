import ImportClosure.Proofs.Operations

/-!
# What steps preserve

A property of sessions is preserved by a step if the session that the step leaves has it again, with or without an error
(`Step.Preserves`). A property that bears decisions, notes, reports other than those of missing imports, and everything
that is not said (`Engine.Bears`), is preserved by all steps of a session, if it bears the reports of missing imports too.
-/

namespace ImportClosure

variable {σ : Type}

open Step

/-- From wherever a property holds, it holds of the session that a step leaves, with or without an error. -/
def Step.Preserves (I : Session σ → Prop) {α : Type} (x : Step σ α) : Prop :=
  ∀ s, I s → I (ends x s).2

namespace Step.Preserves

variable {α β : Type} {I : Session σ → Prop}

theorem pure (a : α) : Preserves I (Pure.pure a : Step σ α) :=
  fun _ h => h

theorem throw (err : Error) : Preserves I (MonadExcept.throw err : Step σ α) :=
  fun _ h => h

theorem update {f : Session σ → Session σ} (hf : ∀ s, I s → I (f s)) : Preserves I (Engine.update f) :=
  hf

/-- What two steps preserve they preserve one behind the other. -/
theorem bind {x : Step σ α} {f : α → Step σ β} (hx : Preserves I x) (hf : ∀ a, Preserves I (f a)) :
    Preserves I (x >>= f) := by
  intro s hs
  rcases h : ends x s with ⟨err | a, s₁⟩
  · rw [ends_bind_error h, ← show (ends x s).2 = s₁ by rw [h]]
    exact hx s hs
  · rw [ends_bind_ok h]
    refine hf a s₁ ?_
    rw [← show (ends x s).2 = s₁ by rw [h]]
    exact hx s hs

/-- An error ends the steps behind it. -/
theorem throw_bind (err : Error) (f : α → Step σ β) : Preserves I (MonadExcept.throw err >>= f) := by
  intro s hs
  rw [ends_bind_error (ends_throw err s)]
  exact hs

/-- What is done with the session that is found there may depend on the property. -/
theorem get_bind {f : Session σ → Step σ β} (hf : ∀ s, I s → I (ends (f s) s).2) : Preserves I (get >>= f) := by
  intro s hs
  rw [ends_bind_ok (ends_get s)]
  exact hf s hs

/-- What every step preserves all of them preserve. -/
theorem forM {xs : List α} {f : α → Step σ PUnit} (hf : ∀ x, Preserves I (f x)) : Preserves I (xs.forM f) := by
  induction xs with
  | nil => exact .pure _
  | cons x xs ih => exact .bind (hf x) fun _ => ih

theorem adapt (g : Error → Error) {x : Step σ α} (hx : Preserves I x) : Preserves I (ExceptT.adapt g x) := by
  intro s hs
  rw [ends_adapt]
  exact hx s hs

end Step.Preserves

/-- Whether a diagnostic reports an import that is not found. -/
def Diagnostic.isUnresolved (d : Diagnostic) : Bool :=
  d.kind == "unresolved-import"

namespace Engine

/-- A property that is kept whatever the session does and says, unless it reports an import that is not found. -/
structure Bears (e : Engine σ) (I : Session σ → Prop) : Prop where
  decide : ∀ q, Preserves I (e.decide q)
  note : ∀ {s : Session σ} {event : Event}, (∀ q, event ≠ .encounter q) → I s → I (s.note event)
  diagnose : ∀ {s : Session σ} {d : Diagnostic}, d.isUnresolved = false → I s → I (s.diagnose d)
  /-- The property is one of what was said and decided. -/
  congr : ∀ {s s' : Session σ}, I s → s'.decisions = s.decisions → s'.events = s.events →
    s'.diagnostics = s.diagnostics → s'.warned = s.warned → I s'

namespace Bears

variable {e : Engine σ} {I : Session σ → Prop}

/-- To note what a session does is borne. -/
theorem trace (h : e.Bears I) {event : Event} (hevent : ∀ q, event ≠ .encounter q) : Preserves I (e.trace event) := by
  unfold Engine.trace
  split
  · exact .update fun _ => h.note hevent
  · exact .pure _

theorem report (h : e.Bears I) {d : Diagnostic} (hd : d.isUnresolved = false) :
    Preserves I (update fun s : Session σ => s.diagnose d) :=
  .update fun _ => h.diagnose hd

/-- To note the sources that were passed over is borne. -/
theorem foldl_note (h : e.Bears I) (notes : List BuildNote) {s : Session σ} (hs : I s) :
    I (notes.foldl (fun s what => s.note (.passedOver what)) s) := by
  induction notes generalizing s with
  | nil => exact hs
  | cons what notes ih => exact ih (h.note nofun hs)

/-- What a builder answers is borne, whatever it is. -/
theorem build (h : e.Bears I) (r : BuildRequest) : Preserves I (e.build r) := by
  intro s hs
  have hnotes := h.foldl_note (e.builder.build r s.builder).1.notes
    (s := { s with builder := (e.builder.build r s.builder).2 }) (h.congr hs rfl rfl rfl rfl)
  unfold Engine.build
  rw [ends_bind_ok (ends_get s), ends_bind_ok (ends_set _ _)]
  rcases (e.builder.build r s.builder).1.result with err | _ | o
  · exact hnotes
  · exact hnotes
  · exact h.congr hnotes rfl rfl rfl rfl

/-- To keep and to queue what was built is borne. -/
theorem accept (h : e.Bears I) (o : BuildOutcome) (reason : String) (signalled : Bool) :
    Preserves I (Engine.accept (σ := σ) o reason signalled) := by
  intro s hs
  rw [ends_accept]
  exact h.congr hs rfl rfl rfl rfl

/-- To ask for an included module is borne, whether it is got or not. -/
theorem recurse (h : e.Bears I) (r : RecursionRequest) (signalled : Bool) : Preserves I (e.recurse r signalled) := by
  refine .bind (fun s hs => hs) fun s => ?_
  split
  · exact .pure _
  · split
    · exact .throw _
    · refine .bind (.update fun _ => h.note nofun) fun _ => .bind (h.build _) fun found => ?_
      split
      · exact .pure _
      · exact .bind (h.accept _ _ _) fun _ => .pure _

theorem fetch (h : e.Bears I) (r : RecursionRequest) : Preserves I (e.fetch r) := by
  refine .bind (h.recurse r false) fun found => ?_
  cases found with
  | none => exact .pure _
  | some m => exact .bind (.update fun _ hs => h.congr hs rfl rfl rfl rfl) fun _ => .pure _

theorem acceptEntry (h : e.Bears I) (o : BuildOutcome) : Preserves I (e.acceptEntry o) := by
  intro s hs
  have hnoted : ∀ m, I (s.note (.entryAdded m)) := fun m => h.note nofun hs
  unfold Engine.acceptEntry Engine.trace
  rw [ends_bind_ok (ends_get s)]
  cases e.policy.options.showInclusion with
  | false => exact h.congr hs rfl rfl rfl rfl
  | true => exact h.congr (hnoted (s.keep (e.entryRecord o.record)).1) rfl rfl rfl rfl

/-- To build the entry is borne. -/
theorem addEntry (h : e.Bears I) (path : Path) : Preserves I (e.addEntry path) := by
  refine .bind (h.build _) fun found => ?_
  cases found with
  | none => exact .throw _
  | some o => exact h.acceptEntry o

/-! ## Walks -/

theorem includeFailed (h : e.Bears I) (path : Path) : Preserves I (Engine.includeFailed (σ := σ) path) :=
  .bind (h.report rfl) fun _ => .pure _

theorem addRoot (h : e.Bears I) (m : ModuleRecord) : Preserves I (update fun s : Session σ => s.addRoot m) :=
  .update fun _ hs => h.congr hs rfl rfl rfl rfl

/-- To open a package is borne, also where that fails. -/
theorem openPackage (h : e.Bears I) (m : ModuleRecord) : Preserves I (Engine.openPackage (σ := σ) m) := by
  unfold Engine.openPackage
  split
  · exact .pure _
  · refine .bind (h.addRoot m) fun _ => ?_
    split
    · exact .pure _
    · exact .throw _

omit I in
theorem namesIn (I : Session σ → Prop) (dir : Path) : Preserves I (e.namesIn dir) := by
  unfold Engine.namesIn
  split
  · exact .pure _
  · exact .throw _

/-- To register what was included is borne. -/
theorem registerIncluded (h : e.Bears I) (m : ModuleRecord) : Preserves I (e.registerIncluded m) := by
  unfold Engine.registerIncluded
  refine .bind (h.trace nofun) fun _ => .bind (.update fun _ hs => h.congr hs rfl rfl rfl rfl) fun _ => ?_
  dsimp only
  split
  · split
    · exact .throw_bind _ _
    · exact .bind (h.openPackage m) fun _ => .bind (h.trace nofun) fun _ => .bind (namesIn I _) fun _ => .pure _
  · split
    · exact .bind (h.addRoot m) fun _ => .pure _
    · exact .pure _

/-- To walk one path is borne. -/
theorem walkSingle (h : e.Bears I) (path : Path) (package : Option ModuleName) : Preserves I (e.walkSingle path package) := by
  unfold Engine.walkSingle
  refine .bind (h.trace nofun) fun _ => ?_
  split
  · exact .pure _
  next bare kind _ =>
    have hreport : Preserves I (e.reportExtension (.inPackage bare package) kind) := by
      unfold Engine.reportExtension
      split
      · exact h.report rfl
      · exact .pure _
    refine .bind hreport fun _ => .bind (h.decide _) fun d => ?_
    cases d with
    | included reason =>
      refine .bind (h.fetch _) fun found => ?_
      cases found with
      | some m => exact h.registerIncluded m
      | none => exact h.includeFailed _
    | excluded | undecided => exact .bind (h.report rfl) fun _ => .pure _

theorem walkPath (h : e.Bears I) (path : Path) (package : Option ModuleName) : Preserves I (e.walkPath path package) := by
  unfold Engine.walkPath
  refine .bind (h.trace nofun) fun _ => ?_
  split
  · exact .pure _
  · split
    · exact h.includeFailed path
    · exact .bind (namesIn I path) fun _ => .pure _

theorem walkPattern (h : e.Bears I) (text : String) : Preserves I (e.walkPattern text) := by
  unfold Engine.walkPattern
  refine .bind (h.trace nofun) fun _ => ?_
  dsimp only
  split
  · exact .throw_bind _ _
  cases FilePattern.read text with
  | error fault => exact .throw _
  | ok pattern =>
    dsimp only
    split
    · exact .bind (h.report rfl) fun _ => .pure _
    · exact .pure _

theorem expand (h : e.Bears I) (item : WalkItem) : Preserves I (e.expand item) := by
  cases item with
  | single path package => exact h.walkSingle path package
  | path path package => exact h.walkPath path package
  | pattern text => exact h.walkPattern text

/-- To walk what is on a stack is borne. -/
theorem walkStack (h : e.Bears I) (bound : Nat) (items : List WalkItem) : Preserves I (e.walkStack bound items) := by
  induction bound generalizing items with
  | zero =>
    cases items with
    | nil => exact .pure _
    | cons item rest => exact .throw _
  | succ bound ih =>
    cases items with
    | nil => exact .pure _
    | cons item rest => exact .bind (h.expand item) fun children => ih (children ++ rest)

theorem walk (h : e.Bears I) (item : WalkItem) : Preserves I (e.walk item) :=
  .bind (h.expand item) fun items => h.walkStack _ items

/-- To walk what a configuration includes is borne. -/
theorem seedIncludes (h : e.Bears I) (includes : ImportClosure.Includes) (base : Path) :
    Preserves I (e.seedIncludes includes base) :=
  .bind (.forM fun _ => h.walk _) fun _ => .forM fun _ => h.walk _

/-! ## Passes -/

/-- To follow an import edge is borne. -/
theorem followEdge (h : e.Bears I) (m : ModuleRecord) (name : ModuleName) (file : ModuleFile) (kind : ModuleKind)
    (at_ : SourceRef) (tag : UsageTag) : Preserves I (e.followEdge m name file kind at_ tag) := by
  refine .bind (h.decide _) fun d => ?_
  cases d with
  | included reason =>
    refine .bind (h.recurse _ _) fun found => ?_
    cases found with
    | some used => exact .update fun _ hs => h.congr hs rfl rfl rfl rfl
    | none => exact .pure _
  | excluded | undecided => exact .pure _

/-- An import edge preserves what is borne and holds once the edge has been reported. -/
theorem considerEdge (h : e.Bears I) {m : ModuleRecord} {edge : ImportEdge} {s : Session σ} (hs : I (s.reported m edge)) :
    I (ends (e.considerEdge m edge) s).2 := by
  unfold Engine.considerEdge
  rw [ends_bind_ok (ends_reportMissing m edge s)]
  cases edge.file with
  | none => exact hs
  | some file =>
    have hfollow := h.followEdge m edge.name file edge.kind edge.sourceRef .statement
    exact hfollow.adapt (Error.withSite (.explicit m.name edge.sourceRef)) _ hs

/-- To consider an import that the plugins declare is borne. -/
theorem considerImplicit (h : e.Bears I) (m : ModuleRecord) (i : ImplicitImport) : Preserves I (e.considerImplicit m i) := by
  unfold Engine.considerImplicit
  cases i.file with
  | none => exact .pure _
  | some file => exact .adapt _ (h.followEdge m i.name file i.kind m.sourceRef .plugin)

omit I in
theorem implicitImports (I : Session σ → Prop) (m : ModuleRecord) : Preserves I (e.implicitImports m) := by
  unfold Engine.implicitImports
  split
  · exact .pure _
  · exact .throw _

/-- The imports that the plugins declare preserve whatever is borne. -/
theorem declared (h : e.Bears I) (m : ModuleRecord) :
    Preserves I (e.implicitImports m >>= fun imports => imports.forM (e.considerImplicit m)) :=
  .bind (implicitImports I m) fun _ => .forM fun i => h.considerImplicit m i

end Bears

end Engine

end ImportClosure
