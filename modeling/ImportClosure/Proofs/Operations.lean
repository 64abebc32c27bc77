import ImportClosure.Proofs.Walking

/-!
# Operations as runs of actions

Which actions each operation consists of. Consuming a module follows only what the module asks for and what the policy
includes (`consider_leads`); walking only fetches what it has asked for explicitly (`walk_leads`); a pass empties the
queue and consumes what was in it (`runPass_leads`).
-/

namespace ImportClosure

variable {σ : Type}

open Step

/-- What a module asks about: its imports, and those that the plugins declare for it. -/
def Engine.Asks (e : Engine σ) (m : ModuleRecord) (edges : List ImportEdge) (q : Query) : Prop :=
  q ∈ edges.filterMap ImportEdge.query? ∨
    ∃ imports, e.policy.plugins.implicitImports m = .ok imports ∧ q ∈ imports.filterMap ImplicitImport.query?

/-- What a module asks about is the file of one of its edges, or of an import that the plugins declare for it. -/
theorem Engine.Asks.exists_file {e : Engine σ} {m : ModuleRecord} {edges : List ImportEdge} {q : Query}
    (h : e.Asks m edges q) :
    (∃ edge ∈ edges, q.file ∈ edge.file ∧ q.kind = edge.kind) ∨
      ∃ imports, e.policy.plugins.implicitImports m = .ok imports ∧ ∃ i ∈ imports, q.file ∈ i.file ∧ q.kind = i.kind := by
  rcases h with hq | ⟨imports, hi, hq⟩
  · obtain ⟨edge, hedge, hq⟩ := List.mem_filterMap.1 hq
    obtain ⟨file, hfile, rfl⟩ := Option.map_eq_some_iff.1 hq
    exact Or.inl ⟨edge, hedge, hfile, rfl⟩
  · obtain ⟨i, hmem, hq⟩ := List.mem_filterMap.1 hq
    obtain ⟨file, hfile, rfl⟩ := Option.map_eq_some_iff.1 hq
    exact Or.inr ⟨imports, hi, i, hmem, hfile, rfl⟩

/-- What a query can lead to: the policy includes it, and asking for it comes to the module. -/
def Engine.Gives (e : Engine σ) (q : Query) (m : ModuleRecord) : Prop :=
  ∃ reason r signalled s s', e.Stands q (.included reason) ∧ r.AsksFor q ∧ Recursed e r signalled s (.ok (some m)) s'

/-- The session in which an import edge has been reported if it is not found. -/
def Session.reported (s : Session σ) (m : ModuleRecord) (edge : ImportEdge) : Session σ :=
  if edge.finding = .notFound then s.warnUnresolved m.name edge else s

/-- A report is a diagnostic, and leaves the rest of the session as it is. -/
theorem Session.exists_reported (s : Session σ) (m : ModuleRecord) (edge : ImportEdge) :
    ∃ diagnostics warned events, s.reported m edge = { s with diagnostics, warned, events } := by
  unfold reported
  split
  · unfold warnUnresolved
    split
    · exact ⟨_, _, _, rfl⟩
    · exact ⟨_, _, _, rfl⟩
  · exact ⟨_, _, _, rfl⟩

/-- Reporting an edge that is not found succeeds, and leaves the session with its report. -/
theorem Engine.ends_reportMissing (m : ModuleRecord) (edge : ImportEdge) (s : Session σ) :
    ends (reportMissing m edge) s = (.ok (), s.reported m edge) := by
  unfold reportMissing Session.reported
  split <;> rfl

namespace Action

/-- What may happen while a module is consumed that asks about certain queries. -/
def Follows (e : Engine σ) (m : ModuleRecord) (asks : Query → Prop) : Action → Prop
  | remarked => True
  | used found user _ _ _ => user = m ∧ ∃ q, asks q ∧ e.Gives q found
  | decided q => asks q
  | recursed r signalled => signalled = true ∧ ∃ q reason, asks q ∧ r.AsksFor q ∧ e.Stands q (.included reason)
  | _ => False

/-- What may happen while queued modules are consumed. -/
def Consumes (e : Engine σ) (ms : List PendingModule) (a : Action) : Prop :=
  ∃ m ∈ ms, Follows e m.record (e.Asks m.record m.uses) a

/-- What may happen without the entry being built or a module being asked for that the policy does not include. -/
def Sanctioned (e : Engine σ) : Action → Prop
  | recursed r _ | fetched r => ∃ q reason, r.AsksFor q ∧ e.Stands q (.included reason)
  | used found _ _ _ _ => ∃ q, e.Gives q found
  | entered _ => False
  | _ => True

/-- What may happen without the entry being built or the main module being asked for. -/
def SparesMain : Action → Prop
  | recursed r _ | fetched r => r.name ≠ .main
  | entered _ => False
  | _ => True

end Action

/-- What following a query has come to: the policy does not include it, or the module has been asked for. -/
def Followed (e : Engine σ) (allowed : Action → Prop) (q : Query) (s : Session σ) : Prop :=
  (∃ d, e.Stands q d ∧ d.isIncluded = false) ∨
    ∃ r found s₁ s₂, r.AsksFor q ∧ Recursed e r true s₁ (.ok found) s₂ ∧ Moves e allowed s₂ s

namespace Followed

variable {e : Engine σ} {allowed : Action → Prop} {q : Query} {s s' : Session σ}

/-- A query that was followed stays so. -/
theorem moves (h : Followed e allowed q s) (hm : Moves e allowed s s') : Followed e allowed q s' := by
  rcases h with h | ⟨r, found, s₁, s₂, hr, hc, hm'⟩
  · exact Or.inl h
  · exact Or.inr ⟨r, found, s₁, s₂, hr, hc, hm'.trans hm⟩

/-- A query that was followed by what may happen was so by anything more that may. -/
theorem mono {allowed' : Action → Prop} (h : Followed e allowed q s) (hle : ∀ a, allowed a → allowed' a) :
    Followed e allowed' q s := by
  rcases h with h | ⟨r, found, s₁, s₂, hr, hc, hm⟩
  · exact Or.inl h
  · exact Or.inr ⟨r, found, s₁, s₂, hr, hc, hm.mono hle⟩

end Followed

namespace Engine

variable {e : Engine σ} {s : Session σ}

/-! ## Consuming a module -/

section Follow

variable {m : ModuleRecord} {asks : Query → Prop}

/-- Following an edge comes to its query being followed. -/
theorem followEdge_leads {name : ModuleName} {file : ModuleFile} {kind : ModuleKind} {at_ : SourceRef} {tag : UsageTag}
    (hs : e.Remembers s) (ha : asks ⟨file, name, kind, false⟩) :
    Leads e (Action.Follows e m asks) (e.followEdge m name file kind at_ tag) s
      fun _ => Followed e (Action.Follows e m asks) ⟨file, name, kind, false⟩ := by
  unfold followEdge
  refine .bind (decide_leads hs ha) fun d s₁ hm hd => ?_
  cases d with
  | included reason =>
    refine .bind (recurse_leads ⟨rfl, _, reason, ha, ⟨rfl, rfl, rfl⟩, hd⟩) fun found s₂ _ ⟨s₀, hc⟩ => ?_
    have hq : Followed e (Action.Follows e m asks) ⟨file, name, kind, false⟩ s₂ :=
      Or.inr ⟨_, _, _, _, ⟨rfl, rfl, rfl⟩, hc, .refl s₂⟩
    cases found with
    | none => exact .pure hq
    | some used =>
      have hgives : e.Gives ⟨file, name, kind, false⟩ used := ⟨_, _, _, _, _, hd, ⟨rfl, rfl, rfl⟩, hc⟩
      have hu : Action.Follows e m asks (.used used m tag reason.text at_) := ⟨rfl, _, ha, hgives⟩
      exact .update (.used used m tag reason.text at_) hu rfl (hq.moves (.single _ hu rfl))
  | excluded reason => exact .pure (Or.inl ⟨_, hd, rfl⟩)
  | undecided reason => exact .pure (Or.inl ⟨_, hd, rfl⟩)

/-- A report follows nothing. -/
theorem reportMissing_leads (edge : ImportEdge) :
    Leads e (Action.Follows e m asks) (reportMissing m edge) s fun _ _ => True := by
  unfold reportMissing
  split
  · refine .act .remarked trivial ?_
    unfold Session.warnUnresolved
    split <;> exact ⟨_, _, _, rfl⟩
  · exact .pure trivial

/-- Considering an edge follows its query. -/
theorem considerEdge_leads {edge : ImportEdge} (hs : e.Remembers s) (ha : ∀ q, edge.query? = some q → asks q) :
    Leads e (Action.Follows e m asks) (e.considerEdge m edge) s
      fun _ s' => ∀ q, edge.query? = some q → Followed e (Action.Follows e m asks) q s' := by
  unfold considerEdge
  refine .bind (reportMissing_leads edge) fun _ s₁ hm _ => ?_
  cases hf : edge.file with
  | none => exact .pure (by simp [ImportEdge.query?, hf])
  | some file =>
    have hq : edge.query? = some ⟨file, edge.name, edge.kind, false⟩ := by simp [ImportEdge.query?, hf]
    refine .adapt _ ((followEdge_leads (hs.moves hm) (ha _ hq)).weaken fun _ s₂ _ h => ?_)
    intro q hq'
    obtain rfl : _ = q := Option.some.inj (hq.symm.trans hq')
    exact h

/-- Considering a declared import follows its query. -/
theorem considerImplicit_leads {i : ImplicitImport} (hs : e.Remembers s) (ha : ∀ q, i.query? = some q → asks q) :
    Leads e (Action.Follows e m asks) (e.considerImplicit m i) s
      fun _ s' => ∀ q, i.query? = some q → Followed e (Action.Follows e m asks) q s' := by
  unfold considerImplicit
  cases hf : i.file with
  | none => exact .pure (by simp [ImplicitImport.query?, hf])
  | some file =>
    have hq : i.query? = some ⟨file, i.name, i.kind, false⟩ := by simp [ImplicitImport.query?, hf]
    refine .adapt _ ((followEdge_leads hs (ha _ hq)).weaken fun _ s₂ _ h => ?_)
    intro q hq'
    obtain rfl : _ = q := Option.some.inj (hq.symm.trans hq')
    exact h

/-- The declared imports are those that the plugins give. -/
theorem implicitImports_leads {allowed : Action → Prop} :
    Leads e allowed (e.implicitImports m) s fun imports _ => e.policy.plugins.implicitImports m = .ok imports := by
  unfold implicitImports
  cases e.policy.plugins.implicitImports m with
  | error what => exact .throw _
  | ok imports => exact .pure rfl

/-- Consuming a module follows all that it asks about, and nothing else. -/
theorem consider_leads {edges : List ImportEdge} (hs : e.Remembers s) :
    Leads e (Action.Follows e m (e.Asks m edges)) (e.consider m edges) s
      fun _ s' => ∀ q, e.Asks m edges q → Followed e (Action.Follows e m (e.Asks m edges)) q s' := by
  have hstable : ∀ (q? : Option Query) (s s' : Session σ), Moves e (Action.Follows e m (e.Asks m edges)) s s' →
      (∀ q, q? = some q → Followed e (Action.Follows e m (e.Asks m edges)) q s) →
      ∀ q, q? = some q → Followed e (Action.Follows e m (e.Asks m edges)) q s' :=
    fun q? s s' hm h q hq => (h q hq).moves hm
  unfold consider
  refine .bind (.forM hs (fun edge hedge s hs => considerEdge_leads hs fun q hq => ?_)
    fun edge => hstable edge.query?) fun _ s₁ hm hedges => ?_
  · exact Or.inl (List.mem_filterMap.2 ⟨edge, hedge, hq⟩)
  · refine .bind implicitImports_leads fun imports s₂ hm₂ hi => ?_
    refine (Leads.forM ((hs.moves hm).moves hm₂) (fun i hmem s hs => considerImplicit_leads hs fun q hq => ?_)
      fun i => hstable i.query?).weaken fun _ s' hm' himplicit => ?_
    · exact Or.inr ⟨_, hi, List.mem_filterMap.2 ⟨i, hmem, hq⟩⟩
    · rintro q (hq | ⟨imports', hi', hq⟩)
      · obtain ⟨edge, hedge, hq⟩ := List.mem_filterMap.1 hq
        exact (hedges edge hedge q hq).moves (hm₂.trans hm')
      · obtain rfl : imports = imports' := Except.ok.inj (hi.symm.trans hi')
        obtain ⟨i, hmem, hq⟩ := List.mem_filterMap.1 hq
        exact himplicit i hmem q hq

end Follow

/-! ## Walking what is to be included -/

/-- Walking all that is to be included is a run of what its single walks are runs of, in sessions that keep a property. -/
theorem seedIncludes_leads_of_keeps {allowed : Action → Prop} {I : Session σ → Prop} {includes : Includes} {base : Path}
    (hI : ∀ s s', Moves e allowed s s' → I s → I s') (hs : I s)
    (hpaths : ∀ path ∈ includes.paths, ∀ s, I s →
      Leads e allowed (e.walk (.path (base.join ⟨path⟩) none)) s fun _ _ => True)
    (hpatterns : ∀ text ∈ includes.patterns, ∀ s, I s →
      Leads e allowed (e.walk (.pattern (base.join ⟨text⟩).text)) s fun _ _ => True) :
    Leads e allowed (e.seedIncludes includes base) s fun _ _ => True := by
  unfold seedIncludes
  refine .bind (.forM_of_keeps hI hs hpaths fun _ _ _ _ h => h) fun _ s₁ hm _ => ?_
  exact (Leads.forM_of_keeps hI (hI s s₁ hm hs) hpatterns fun _ _ _ _ h => h).weaken fun _ _ _ _ => trivial

/-- Walking what is to be included is a walk. -/
theorem seedIncludes_leads (hs : e.Remembers s) (includes : Includes) (base : Path) :
    Leads e (Action.Walks e) (e.seedIncludes includes base) s fun _ _ => True :=
  seedIncludes_leads_of_keeps (fun _ _ hm hs => hs.moves hm) hs (fun _ _ _ hs => walk_leads hs _)
    fun _ _ _ hs => walk_leads hs _

/-! ## Passes -/

/-- Consuming queued modules follows all that they ask about, and nothing else. -/
theorem consumeAll_leads (ms : List PendingModule) (hs : e.Remembers s) :
    Leads e (Action.Consumes e ms) (ms.forM e.consume) s
      fun _ s' => ∀ m ∈ ms, ∀ q, e.Asks m.record m.uses q → Followed e (Action.Consumes e ms) q s' := by
  refine .forM hs (fun m hm s hs => ?_) fun m s s' hm h q hq => (h q hq).moves hm
  have hle : ∀ a, Action.Follows e m.record (e.Asks m.record m.uses) a → Action.Consumes e ms a :=
    fun a ha => ⟨m, hm, ha⟩
  exact ((consider_leads hs).mono hle).weaken fun _ s' _ h q hq => (h q hq).mono hle

/-- A pass empties the queue and consumes what was in it. -/
theorem ends_runPass (e : Engine σ) (s : Session σ) :
    ends e.runPass s = match ends (s.pending.forM e.consume) { s with pending := [] } with
      | (.ok _, s') => (.ok (s'.changes.length - s.changes.length), s')
      | (.error err, s') => (.error err, s') := by
  unfold runPass
  rw [ends_bind_ok (ends_get s), ends_bind_ok (ends_set _ _), ends_bind]
  rcases ends (s.pending.forM e.consume) { s with pending := [] } with ⟨err | _, s'⟩ <;> rfl

/-! ## What is sanctioned -/

/-- The policy never includes the main module. -/
theorem name_ne_main_of_stands {q : Query} {reason : Reason} (h : e.Stands q (.included reason)) : q.name ≠ .main := by
  obtain ⟨q', hk, hd⟩ := h
  have hn : q'.name = q.name := congrArg QueryKey.name hk
  intro hmain
  have hm : e.policy.mainRule q' = some (.excluded .mainNotTwice) := by
    simp [Policy.mainRule, ModuleName.isMain, hn, hmain]
  simp [Policy.decide, Policy.rules, hm] at hd

end Engine

namespace Action

variable {e : Engine σ} {a : Action}

/-- What happens while a module is consumed is sanctioned. -/
theorem Follows.sanctioned {m : ModuleRecord} {asks : Query → Prop} (h : Follows e m asks a) : a.Sanctioned e := by
  cases a with
  | recursed r signalled =>
    obtain ⟨_, q, reason, _, hr, hd⟩ := h
    exact ⟨q, reason, hr, hd⟩
  | used =>
    obtain ⟨_, q, _, hq⟩ := h
    exact ⟨q, hq⟩
  | fetched => exact h.elim
  | entered => exact h
  | _ => trivial

/-- What happens during a walk is sanctioned. -/
theorem Walks.sanctioned (h : Walks e a) : a.Sanctioned e := by
  cases a with
  | fetched r =>
    obtain ⟨q, reason, _, hr, hd⟩ := h
    exact ⟨q, reason, hr, hd⟩
  | recursed => exact h.elim
  | entered => exact h
  | _ => trivial

/-- What happens while a batch is consumed is sanctioned. -/
theorem Consumes.sanctioned {ms : List PendingModule} (h : Consumes e ms a) : a.Sanctioned e := by
  obtain ⟨_, _, h⟩ := h
  exact h.sanctioned

/-- What is sanctioned does not ask for the main module. -/
theorem Sanctioned.sparesMain (h : a.Sanctioned e) : a.SparesMain := by
  cases a with
  | recursed r | fetched r =>
    obtain ⟨q, reason, ⟨hn, _, _⟩, hd⟩ := h
    exact fun hmain => Engine.name_ne_main_of_stands hd (hn ▸ hmain)
  | entered => exact h
  | _ => trivial

end Action

namespace Engine

variable {e : Engine σ} {s : Session σ}

/-- A pass is a run of what consumes the modules that were queued. -/
theorem runPass_leads {allowed : Action → Prop} (hs : e.Remembers s) (hd : allowed .drained)
    (hle : ∀ a, Action.Consumes e s.pending a → allowed a) : Leads e allowed e.runPass s fun _ _ => True := by
  have hempty : Moves e allowed s { s with pending := [] } := .single .drained hd rfl
  unfold runPass
  refine .get_bind (.bind (.of_ends_ok (ends_set _ s) hempty trivial) fun _ s₁ hm (_ : True) => ?_)
  refine .bind ((consumeAll_leads s.pending (hs.moves hm)).mono hle) fun _ s₂ _ _ => ?_
  exact .get_bind (.pure trivial)

section Runs

variable {allowed : Action → Prop} {I : Session σ → Prop}

/-- Passes are a run of what single passes are runs of, in sessions that keep a property. -/
theorem runPasses_leads (hI : ∀ s s', Moves e allowed s s' → I s → I s')
    (hpass : ∀ s, I s → Leads e allowed e.runPass s fun _ _ => True) (bound : Nat) (hs : I s) :
    Leads e allowed (e.runPasses bound) s fun _ _ => True := by
  induction bound generalizing s with
  | zero => exact .pure trivial
  | succ bound ih =>
    unfold runPasses
    refine .bind (hpass s hs) fun signals s₁ hm _ => ?_
    refine .get_bind ?_
    split
    · exact .pure trivial
    · exact .bind (ih (hI s s₁ hm hs)) fun _ _ _ _ => .pure trivial

/-- A run to the fixed point consists of passes and a remark. -/
theorem runToFixedPoint_leads (hI : ∀ s s', Moves e allowed s s' → I s → I s')
    (hpass : ∀ s, I s → Leads e allowed e.runPass s fun _ _ => True) (ha : allowed .remarked) (bound : Nat) (hs : I s) :
    Leads e allowed (e.runToFixedPoint bound) s fun _ _ => True := by
  unfold runToFixedPoint
  refine .bind (runPasses_leads hI hpass bound hs) fun passes s₁ _ _ => ?_
  cases passes with
  | none => exact .pure trivial
  | some passes =>
    refine .bind (.act .remarked ha ⟨_, _, _, rfl⟩) fun _ s₂ _ _ => ?_
    exact .get_bind (.pure trivial)

end Runs

/-- A pass does only what is sanctioned. -/
theorem runPass_sanctioned (hs : e.Remembers s) : Leads e (Action.Sanctioned e) e.runPass s fun _ _ => True :=
  runPass_leads hs trivial fun _ ha => ha.sanctioned

/-- A run to the fixed point does only what is sanctioned. -/
theorem runToFixedPoint_sanctioned (bound : Nat) (hs : e.Remembers s) :
    Leads e (Action.Sanctioned e) (e.runToFixedPoint bound) s fun _ _ => True :=
  runToFixedPoint_leads (fun _ _ hm hs => hs.moves hm) (fun _ hs => runPass_sanctioned hs) trivial bound hs

end Engine

/-- A walk is a run of the actions of a walk. -/
theorem Operation.perform_walks {e : Engine σ} {s : Session σ} (op : Operation) (hs : e.Remembers s)
    (h : op.isWalk = true) : Leads e (Action.Walks e) (op.perform e) s fun _ _ => True := by
  cases op with
  | walk item => exact Engine.walk_leads hs item
  | seed includes base => exact Engine.seedIncludes_leads hs includes base
  | _ => cases h

/-- Walks one after the other are a run of the actions of a walk. -/
theorem Engine.performAll_walks {e : Engine σ} {s : Session σ} {ops : List Operation} (hs : e.Remembers s)
    (h : ∀ op ∈ ops, op.isWalk = true) : Leads e (Action.Walks e) (e.performAll ops) s fun _ _ => True :=
  (Leads.forM hs (fun op hop _ hs => op.perform_walks hs (h op hop)) fun _ _ _ _ h => h).weaken
    fun _ _ _ _ => trivial

/-- What an operation walks. -/
def Operation.items : Operation → List WalkItem
  | walk item => [item]
  | seed includes base =>
    (includes.paths.map fun p => .path (base.join ⟨p⟩) none) ++
      includes.patterns.map fun p => .pattern (base.join ⟨p⟩).text
  | _ => []

/-- What may happen during an operation. -/
def Operation.Allows : Operation → Action → Prop
  | addEntry path, a => a = .entered path
  | recurse r signalled, a => a = .recursed r signalled
  | _, a => a.SparesMain

/-- Whether an operation asks for a module by its name, without a decision about it. -/
def Operation.isRequest : Operation → Bool
  | recurse .. => true
  | _ => false

/-- An operation that neither builds the entry nor asks for a module by its name is a run of sanctioned actions. -/
theorem Operation.perform_sanctioned {e : Engine σ} {s : Session σ} (op : Operation) (hs : e.Remembers s)
    (hentry : op.isEntry = false) (hrequest : op.isRequest = false) :
    Leads e (Action.Sanctioned e) (op.perform e) s fun _ _ => True := by
  cases op with
  | addEntry path => cases hentry
  | walk item => exact (perform_walks _ hs rfl).mono fun a ha => ha.sanctioned
  | seed includes base => exact (perform_walks _ hs rfl).mono fun a ha => ha.sanctioned
  | pass => exact .bind (Engine.runPass_sanctioned hs) fun _ _ _ _ => .pure trivial
  | run bound => exact .bind (Engine.runToFixedPoint_sanctioned bound hs) fun _ _ _ _ => .pure trivial
  | consider m edges => exact ((Engine.consider_leads hs).mono fun a ha => ha.sanctioned).weaken fun _ _ _ _ => trivial
  | recurse r signalled => cases hrequest
  | decide q => exact .bind (Engine.decide_leads hs trivial) fun _ _ _ _ => .pure trivial

/-- An operation that consumes nothing from the queue leaves the queue alone. -/
theorem Operation.perform_undrained {e : Engine σ} {s : Session σ} (op : Operation) (hs : e.Remembers s)
    (hop : op.isPass = false) : Leads e (fun a => a ≠ .drained) (op.perform e) s fun _ _ => True := by
  have hwalks : ∀ a, Action.Walks e a → a ≠ .drained := by
    rintro a ha rfl
    exact ha
  cases op with
  | addEntry path =>
    have hx : Leads e (fun a => a ≠ .drained) (e.addEntry path) s fun _ _ => True :=
      ⟨.single (.entered path) nofun rfl, fun _ _ _ => trivial⟩
    exact .bind hx fun _ _ _ _ => .pure trivial
  | walk item => exact (perform_walks _ hs rfl).mono hwalks
  | seed includes base => exact (perform_walks _ hs rfl).mono hwalks
  | pass | run => cases hop
  | consider m edges =>
    refine ((Engine.consider_leads hs).mono fun a ha => ?_).weaken fun _ _ _ _ => trivial
    rintro rfl
    exact ha
  | recurse r signalled => exact .bind (Engine.recurse_leads nofun) fun _ _ _ _ => .pure trivial
  | decide q => exact .bind (Engine.decide_leads hs nofun) fun _ _ _ _ => .pure trivial

/-- An operation is a run of the actions that it allows. -/
theorem Operation.perform_leads {e : Engine σ} {s : Session σ} (op : Operation) (hs : e.Remembers s) :
    Leads e op.Allows (op.perform e) s fun _ _ => True := by
  cases op with
  | addEntry path =>
    have hx : Leads e (Operation.addEntry path).Allows (e.addEntry path) s fun _ _ => True :=
      ⟨.single (.entered path) rfl rfl, fun _ _ _ => trivial⟩
    exact .bind hx fun _ _ _ _ => .pure trivial
  | recurse r signalled => exact .bind (Engine.recurse_leads rfl) fun _ _ _ _ => .pure trivial
  | _ => exact (perform_sanctioned _ hs rfl rfl).mono fun a ha => ha.sparesMain

/-- Building the entry leaves what it leaves as an operation. -/
theorem Engine.next_addEntry (e : Engine σ) (path : Path) (s : Session σ) :
    e.next s (.addEntry path) = (ends (e.addEntry path) s).2 :=
  snd_ends_drop (e.addEntry path) s

/-- The session that an operation leaves is reached by a run of the actions that it allows. -/
theorem Engine.moves_next {e : Engine σ} {s : Session σ} (hs : e.Remembers s) (op : Operation) :
    Moves e op.Allows s (e.next s op) :=
  (op.perform_leads hs).1

/-- The session that operations leave is reached by a run of actions. -/
theorem Engine.moves_after {e : Engine σ} {s : Session σ} (hs : e.Remembers s) (ops : List Operation) :
    Moves e (fun a => ∃ op ∈ ops, op.Allows a) s (e.after ops s) := by
  induction ops generalizing s with
  | nil => exact .refl s
  | cons op ops ih =>
    have hm := moves_next hs op
    refine (hm.mono fun a ha => ⟨op, by simp, ha⟩).trans ((ih (hs.moves hm)).mono fun a ha => ?_)
    obtain ⟨op', hop, ha⟩ := ha
    exact ⟨op', List.mem_cons_of_mem op hop, ha⟩

/-- Operations that ask for no module by its name are a run of sanctioned actions, and of those that build an entry. -/
theorem Engine.moves_after_of_sanctioned {e : Engine σ} {s : Session σ} (hs : e.Remembers s) {ops : List Operation}
    (hops : ∀ op ∈ ops, op.isRequest = false) :
    Moves e (fun a => (∃ path, a = .entered path) ∨ a.Sanctioned e) s (e.after ops s) := by
  induction ops generalizing s with
  | nil => exact .refl s
  | cons op ops ih =>
    have hm : Moves e (fun a => (∃ path, a = .entered path) ∨ a.Sanctioned e) s (e.next s op) := by
      cases hentry : op.isEntry with
      | true =>
        cases op with
        | addEntry path => exact (moves_next hs (.addEntry path)).mono fun a ha => Or.inl ⟨path, ha⟩
        | _ => cases hentry
      | false => exact (op.perform_sanctioned hs hentry (hops op List.mem_cons_self)).1.mono fun a ha => Or.inr ha
    exact hm.trans (ih (hs.moves hm) fun op' hop => hops op' (List.mem_cons_of_mem op hop))

end ImportClosure
