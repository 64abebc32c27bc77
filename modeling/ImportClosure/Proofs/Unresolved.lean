import ImportClosure.Proofs.Handover
import ImportClosure.Proofs.Preserved
import Mathlib.Data.List.Forall2

/-!
# Reports of unresolved imports

A session meets import edges while it consumes modules, up to the first one that fails (`Engine.meetings`). An edge that is
not found is reported unless one with its name was, and nothing else reports an import or forgets that one was reported.
So the reports are those of the names that were met, in the order in which they were met first, and each is the one of the
edge that was met first (`unresolved_reported_once`).
-/

namespace ImportClosure

variable {σ : Type}

open Step

/-! ## The edges that are met -/

/-- An import edge that a session comes to, and the module that it comes from. -/
structure Meeting where
  importer : ModuleName
  edge : ImportEdge

namespace Meeting

/-- Whether the edge that is met is not found. -/
def isMissing (m : Meeting) : Bool :=
  m.edge.finding = .notFound

/-- The name that is imported. -/
def name (m : Meeting) : ModuleName :=
  m.edge.name

/-- What is said about the edge, if its name is reported. -/
def report (m : Meeting) : Diagnostic :=
  if m.edge.level == 0 then .unresolvedAbsolute m.edge.sourceRef m.name
  else .unresolvedRelative m.edge.sourceRef m.name m.importer.package?

/-- The edge is the one that was met first of those with its name. -/
def IsFirst (missing : List Meeting) (n : ModuleName) (d : Diagnostic) : Prop :=
  ∃ m, missing.find? (fun m => m.name == n) = some m ∧ d = m.report

/-- What was met first stays so. -/
theorem IsFirst.append {missing : List Meeting} {n : ModuleName} {d : Diagnostic} (h : IsFirst missing n d)
    (more : List Meeting) : IsFirst (missing ++ more) n d := by
  obtain ⟨m, hm, hd⟩ := h
  exact ⟨m, by rw [List.find?_append, hm, Option.some_or], hd⟩

end Meeting

namespace Engine

/-- The edges that are met when a module is consumed. -/
def moduleMeetings (e : Engine σ) (m : ModuleRecord) (edges : List ImportEdge) (s : Session σ) : List Meeting :=
  (reached (e.considerEdge m) edges s).map (Meeting.mk m.name)

/-- The edges that are met when a batch of modules is consumed. -/
def batchMeetings (e : Engine σ) : List PendingModule → Session σ → List Meeting
  | [], _ => []
  | m :: rest, s =>
    e.moduleMeetings m.record m.uses s ++ match ends (e.consume m) s with
      | (.ok _, s') => e.batchMeetings rest s'
      | (.error _, _) => []

/-- The edges that a pass meets. -/
def passMeetings (e : Engine σ) (s : Session σ) : List Meeting :=
  e.batchMeetings s.pending { s with pending := [] }

end Engine

/-- The edges that an operation meets. -/
def Operation.meetings (e : Engine σ) (s : Session σ) : Operation → List Meeting
  | pass => e.passMeetings s
  | run bound => (e.passesFrom bound s).flatMap e.passMeetings
  | consider m edges => e.moduleMeetings m edges s
  | _ => []

namespace Engine

/-- The edges that operations meet. -/
def meetings (e : Engine σ) : List Operation → Session σ → List Meeting
  | [], _ => []
  | op :: ops, s => op.meetings e s ++ e.meetings ops (e.next s op)

variable {e : Engine σ} {s s' : Session σ}

/-- All edges of the modules that can be consumed are met. -/
theorem batchMeetings_append {batch : List PendingModule} {u : PUnit} (h : ends (batch.forM e.consume) s = (.ok u, s'))
    (rest : List PendingModule) :
    e.batchMeetings (batch ++ rest) s =
      (batch.flatMap fun p => p.uses.map (Meeting.mk p.record.name)) ++ e.batchMeetings rest s' := by
  induction batch generalizing s with
  | nil =>
    cases h
    rfl
  | cons m batch ih =>
    obtain ⟨_, s₁, hm, hbatch⟩ := exists_of_ends_bind h
    obtain ⟨_, s₂, hedges, _⟩ := exists_of_ends_bind hm
    rw [List.cons_append, batchMeetings, moduleMeetings, reached_eq_self hedges, List.flatMap_cons, List.append_assoc]
    simp only [hm]
    rw [ih hbatch]

/-- A pass that succeeds meets all edges of the modules in the queue. -/
theorem passMeetings_eq {c : Nat} (h : ends e.runPass s = (.ok c, s')) :
    e.passMeetings s = s.pending.flatMap fun p => p.uses.map (Meeting.mk p.record.name) := by
  rw [e.ends_runPass] at h
  rcases hc : ends (s.pending.forM e.consume) { s with pending := [] } with ⟨err | u, s₁⟩ <;> rw [hc] at h
  · cases h
  · have hall := batchMeetings_append hc []
    rwa [List.append_nil, batchMeetings, List.append_nil] at hall

/-- A pass that fails meets all edges of the modules that it has consumed, and those of the last one that it comes to. -/
theorem exists_of_passMeetings {err : Error} (h : ends e.runPass s = (.error err, s')) :
    ∃ before p s₁, e.handsOver s = before ++ [p] ∧ ends (e.consume p) s₁ = (.error err, s') ∧
      e.passMeetings s =
        (before.flatMap fun p => p.uses.map (Meeting.mk p.record.name)) ++ e.moduleMeetings p.record p.uses s₁ := by
  obtain ⟨before, p, s₁, hover, hbefore, hp⟩ := exists_of_runPass_error h
  have hpending := e.pending_eq_handsOver_append s
  rw [hover, List.append_assoc] at hpending
  refine ⟨before, p, s₁, hover, hp, ?_⟩
  rw [passMeetings, hpending, batchMeetings_append hbefore, List.singleton_append, batchMeetings]
  simp only [hp, List.append_nil]

end Engine

/-! ## One report for each name -/

namespace Session

/-- The reports of imports that are not found. -/
def unresolved (s : Session σ) : List Diagnostic :=
  s.diagnostics.filter Diagnostic.isUnresolved

/-- The edges that were not found have been reported once for each name, where the name was met first, and their names are
the ones that count as reported. -/
structure ReportsOnce (s : Session σ) (missing : List Meeting) : Prop where
  reports : List.Forall₂ (Meeting.IsFirst missing) (missing.map Meeting.name).eraseDups s.unresolved
  warned : ∀ n, n ∈ s.warned ↔ n ∈ missing.map Meeting.name

variable {s s' : Session σ} {missing : List Meeting}

theorem ReportsOnce.congr (h : s.ReportsOnce missing) (hunresolved : s'.unresolved = s.unresolved)
    (hwarned : s'.warned = s.warned) : s'.ReportsOnce missing :=
  ⟨hunresolved ▸ h.reports, hwarned ▸ h.warned⟩

/-- In a fresh session nothing was met. -/
theorem reportsOnce_fresh (x : σ) : (fresh x).ReportsOnce [] :=
  ⟨.nil, fun _ => Iff.rfl⟩

/-- An edge with a name that was met is not reported. -/
theorem ReportsOnce.again (h : s.ReportsOnce missing) {m : Meeting} (hm : m.name ∈ missing.map Meeting.name) :
    s.ReportsOnce (missing ++ [m]) := by
  have hnames : ((missing ++ [m]).map Meeting.name).eraseDups = (missing.map Meeting.name).eraseDups := by
    have hgone : [m.name].removeAll (missing.map Meeting.name) = [] := by
      rw [List.removeAll, List.filter_singleton, List.elem_eq_true_of_mem hm]
      rfl
    rw [List.map_append, List.map_singleton, List.eraseDups_append, hgone, List.eraseDups_nil, List.append_nil]
  refine ⟨?_, fun n => ?_⟩
  · rw [hnames]
    exact h.reports.imp fun _ _ hd => hd.append [m]
  · rw [h.warned, List.map_append, List.mem_append]
    refine ⟨Or.inl, fun hn => hn.elim id fun hn => ?_⟩
    rwa [List.mem_singleton.1 hn]

/-- An edge with a name that was not met is reported. -/
theorem ReportsOnce.first (h : s.ReportsOnce missing) {m : Meeting} (hm : m.name ∉ missing.map Meeting.name)
    (hunresolved : s'.unresolved = s.unresolved ++ [m.report]) (hwarned : s'.warned = m.name :: s.warned) :
    s'.ReportsOnce (missing ++ [m]) := by
  have hnames : ((missing ++ [m]).map Meeting.name).eraseDups = (missing.map Meeting.name).eraseDups ++ [m.name] := by
    have hstays : [m.name].removeAll (missing.map Meeting.name) = [m.name] := by
      rw [List.removeAll, List.filter_singleton, List.elem_eq_contains, List.contains_eq_mem, decide_eq_false hm]
      rfl
    rw [List.map_append, List.map_singleton, List.eraseDups_append, hstays]
    rfl
  have hfind : missing.find? (fun m' => m'.name == m.name) = none := by
    rw [List.find?_eq_none]
    exact fun m' hm' heq => hm (List.mem_map.2 ⟨m', hm', beq_iff_eq.1 heq⟩)
  have hfirst : Meeting.IsFirst (missing ++ [m]) m.name m.report :=
    ⟨m, by rw [List.find?_append, hfind]; simp, rfl⟩
  refine ⟨?_, fun n => ?_⟩
  · rw [hnames, hunresolved]
    exact List.rel_append (h.reports.imp fun _ _ hd => hd.append [m]) (.cons hfirst .nil)
  · rw [hwarned, List.mem_cons, h.warned, List.map_append, List.mem_append, List.map_singleton, List.mem_singleton]
    exact Or.comm

/-- The report of an edge, if it is due, counts the edge among those that were met. -/
theorem ReportsOnce.reported (h : s.ReportsOnce missing) (m : ModuleRecord) (edge : ImportEdge) :
    (s.reported m edge).ReportsOnce (missing ++ [Meeting.mk m.name edge].filter Meeting.isMissing) := by
  unfold Session.reported
  split
  next hmissing =>
    have hfilter : [Meeting.mk m.name edge].filter Meeting.isMissing = [⟨m.name, edge⟩] :=
      List.filter_eq_self.2 fun m hm => by simp [List.mem_singleton.1 hm, Meeting.isMissing, hmissing]
    rw [hfilter]
    unfold warnUnresolved
    split
    next hknown => exact h.again ((h.warned _).1 (List.contains_iff_mem.1 hknown))
    next hnew =>
      refine h.first (fun hmet => hnew (List.contains_iff_mem.2 ((h.warned _).2 hmet))) ?_ rfl
      rw [unresolved, diagnose, List.filter_append]
      refine congrArg _ (List.filter_eq_self.2 fun d hd => ?_)
      rw [List.mem_singleton.1 hd]
      split <;> rfl
  next hfound =>
    have hfilter : [Meeting.mk m.name edge].filter Meeting.isMissing = [] := by simp [Meeting.isMissing, hfound]
    rw [hfilter, List.append_nil]
    exact h

end Session

/-! ## Whole runs -/

section Runs

variable {e : Engine σ} {s : Session σ} {missing : List Meeting}

namespace Engine

/-- Nothing but the report of an edge reports an import. -/
theorem bears_reportsOnce (e : Engine σ) (missing : List Meeting) : e.Bears (Session.ReportsOnce · missing) where
  decide q s hs := by
    rcases e.ends_decide q s with ⟨_, _, hq⟩ | ⟨_, _, hq⟩ <;> rw [hq]
    · exact hs
    · exact hs.congr rfl rfl
  note _ hs := hs.congr rfl rfl
  diagnose {s d} hd hs := by
    refine hs.congr ?_ rfl
    rw [Session.unresolved, Session.diagnose, List.filter_append, List.filter_singleton, hd]
    exact List.append_nil _
  congr hs _ _ hdiagnostics hwarned := hs.congr (congrArg (List.filter Diagnostic.isUnresolved) hdiagnostics) hwarned

theorem reportsOnce_considerEdges (hs : s.ReportsOnce missing) (m : ModuleRecord) (edges : List ImportEdge) :
    (ends (edges.forM (e.considerEdge m)) s).2.ReportsOnce
      (missing ++ (e.moduleMeetings m edges s).filter Meeting.isMissing) := by
  induction edges generalizing s missing with
  | nil =>
    rw [moduleMeetings, reached, List.map_nil, List.filter_nil, List.append_nil]
    exact hs
  | cons edge edges ih =>
    have hedge := (e.bears_reportsOnce _).considerEdge (hs.reported m edge)
    rw [moduleMeetings, reached]
    rcases h : ends (e.considerEdge m edge) s with ⟨err | _, s₁⟩ <;> rw [h] at hedge
    · rw [show ends ((edge :: edges).forM (e.considerEdge m)) s = (.error err, s₁) from ends_bind_error h _]
      exact hedge
    · rw [show ends ((edge :: edges).forM (e.considerEdge m)) s = _ from ends_bind_ok h _]
      have hrest := ih hedge
      rwa [List.append_assoc, ← List.filter_append] at hrest

/-- Consuming a module, to the end or not, reports the edges that are met and not found. -/
theorem reportsOnce_consider (hs : s.ReportsOnce missing) (m : ModuleRecord) (edges : List ImportEdge) :
    (ends (e.consider m edges) s).2.ReportsOnce (missing ++ (e.moduleMeetings m edges s).filter Meeting.isMissing) := by
  have hedges := reportsOnce_considerEdges (e := e) hs m edges
  unfold consider
  rcases h : ends (edges.forM (e.considerEdge m)) s with ⟨err | u, s₁⟩ <;> rw [h] at hedges
  · rw [ends_bind_error h]
    exact hedges
  · rw [ends_bind_ok h]
    exact (e.bears_reportsOnce _).declared m s₁ hedges

theorem reportsOnce_batch (hs : s.ReportsOnce missing) (batch : List PendingModule) :
    (ends (batch.forM e.consume) s).2.ReportsOnce (missing ++ (e.batchMeetings batch s).filter Meeting.isMissing) := by
  induction batch generalizing s missing with
  | nil =>
    rw [batchMeetings, List.filter_nil, List.append_nil]
    exact hs
  | cons p batch ih =>
    have hp := reportsOnce_consider (e := e) hs p.record p.uses
    rw [batchMeetings, List.filter_append, ← List.append_assoc]
    rcases h : ends (e.consume p) s with ⟨err | u, s₁⟩
    · rw [show ends ((p :: batch).forM e.consume) s = (.error err, s₁) from ends_bind_error h _]
      rw [show ends (e.consider p.record p.uses) s = _ from h] at hp
      simpa using hp
    · rw [show ends ((p :: batch).forM e.consume) s = _ from ends_bind_ok h _]
      rw [show ends (e.consider p.record p.uses) s = _ from h] at hp
      exact ih hp

theorem reportsOnce_runPass (hs : s.ReportsOnce missing) :
    (ends e.runPass s).2.ReportsOnce (missing ++ (e.passMeetings s).filter Meeting.isMissing) := by
  have hbatch := reportsOnce_batch (e := e) (s := { s with pending := [] }) (hs.congr rfl rfl) s.pending
  rw [ends_runPass]
  rcases h : ends (s.pending.forM e.consume) { s with pending := [] } with ⟨err | u, s₁⟩ <;> rw [h] at hbatch <;>
    exact hbatch

theorem reportsOnce_runPasses (hs : s.ReportsOnce missing) (bound : Nat) :
    (ends (e.runPasses bound) s).2.ReportsOnce
      (missing ++ ((e.passesFrom bound s).flatMap e.passMeetings).filter Meeting.isMissing) := by
  induction bound generalizing s missing with
  | zero =>
    rw [passesFrom, List.flatMap_nil, List.filter_nil, List.append_nil]
    exact hs
  | succ bound ih =>
    have hpass := reportsOnce_runPass (e := e) hs
    rw [ends_runPasses_succ, passesFrom, List.flatMap_cons, List.filter_append, ← List.append_assoc]
    rcases h : ends e.runPass s with ⟨err | c, s₁⟩ <;> rw [h] at hpass
    · simpa using hpass
    by_cases hlast : c = 0 ∧ s₁.pending = []
    · simpa [hlast] using hpass
    · have hrest := ih hpass
      simp only [if_neg hlast]
      rcases hruns : ends (e.runPasses bound) s₁ with ⟨err | answer, s₂⟩ <;> rw [hruns] at hrest <;> exact hrest

/-- An operation reports the edges that it meets and that are not found. -/
theorem reportsOnce_next (hs : s.ReportsOnce missing) (op : Operation) :
    (e.next s op).ReportsOnce (missing ++ (op.meetings e s).filter Meeting.isMissing) := by
  have hbears := e.bears_reportsOnce missing
  have hsilent : ∀ {x : Step σ Unit}, Preserves (Session.ReportsOnce · missing) x →
      (ends x s).2.ReportsOnce (missing ++ ([] : List Meeting).filter Meeting.isMissing) := by
    intro x hx
    rw [List.filter_nil, List.append_nil]
    exact hx s hs
  cases op with
  | addEntry path => exact hsilent (.bind (hbears.addEntry path) fun _ => .pure _)
  | walk item => exact hsilent (hbears.walk item)
  | seed includes base => exact hsilent (hbears.seedIncludes includes base)
  | recurse r signalled => exact hsilent (.bind (hbears.recurse r signalled) fun _ => .pure _)
  | decide q => exact hsilent (.bind (hbears.decide q) fun _ => .pure _)
  | consider m edges => exact reportsOnce_consider hs m edges
  | pass =>
    rw [next, Operation.perform, snd_ends_drop]
    exact reportsOnce_runPass hs
  | run bound =>
    rw [next, Operation.perform, snd_ends_drop]
    rcases e.snd_ends_runToFixedPoint bound s with hend | hend <;> rw [hend]
    · exact reportsOnce_runPasses hs bound
    · exact (reportsOnce_runPasses hs bound).congr rfl rfl

theorem reportsOnce_after (hs : s.ReportsOnce missing) (ops : List Operation) :
    (e.after ops s).ReportsOnce (missing ++ (e.meetings ops s).filter Meeting.isMissing) := by
  induction ops generalizing s missing with
  | nil =>
    rw [meetings, List.filter_nil, List.append_nil]
    exact hs
  | cons op ops ih =>
    rw [meetings, List.filter_append, ← List.append_assoc]
    exact ih (reportsOnce_next hs op)

end Engine

end Runs

/-- Imports that are not found are reported once for each name, and all of them are: over any builder and plugins, after
any operations, failed ones included, the reports of unresolved imports stand in the order of the distinct names of the
edges that were met and not found, and each of them is the report of the edge that was met first with its name, at the
place of this edge. A pass that succeeds meets every edge of every module in the queue; one that fails meets those of the
modules in front of the one that it fails at, and of this one the edges up to the first that fails. -/
theorem unresolved_reported_once (e : Engine σ) (x : σ) (ops : List Operation) :
    let missing := (e.meetings ops (.fresh x)).filter Meeting.isMissing
    List.Forall₂ (fun n d => ∃ m, missing.find? (fun m => m.name == n) = some m ∧ d = m.report)
        (missing.map Meeting.name).eraseDups
        ((e.after ops (.fresh x)).diagnostics.filter fun d => d.kind == "unresolved-import") ∧
      (∀ s c s', ends e.runPass s = (.ok c, s') →
        e.passMeetings s = s.pending.flatMap fun p => p.uses.map (Meeting.mk p.record.name)) ∧
      ∀ s err s', ends e.runPass s = (.error err, s') →
        ∃ before p s₁, e.handsOver s = before ++ [p] ∧ ends (e.consume p) s₁ = (.error err, s') ∧
          e.passMeetings s =
            (before.flatMap fun p => p.uses.map (Meeting.mk p.record.name)) ++ e.moduleMeetings p.record p.uses s₁ := by
  have h := Engine.reportsOnce_after (e := e) (Session.reportsOnce_fresh x) ops
  rw [List.nil_append] at h
  exact ⟨h.reports, fun s c s' => Engine.passMeetings_eq, fun s err s' => Engine.exists_of_passMeetings⟩

/-- An edge to a module that is not found, from a line of a file. -/
def ImportEdge.missingAt (name : String) (level : Nat) (file : String) (line : Nat) : ImportEdge :=
  .notFound ⟨name⟩ level ⟨⟨file⟩, line⟩

/-- An engine over a table in which two modules miss the same import. One of them misses another one behind it, and its next
edge ends in an error. -/
def Engine.missingImports : Engine (List BuildRequest) where
  policy := { options := { followAll := true }, followTo := [], nofollowTo := [], bytecodeModules := [] }
  tree := .empty ⟨"/w"⟩
  builder := .ofTable [
    (.main, { uses := [.missingAt "gone" 0 "/w/main.py" 1, ModuleTable.edgeTo "a"] }),
    (⟨"a"⟩, { uses := [.missingAt "gone" 0 "/w/a.py" 4, .missingAt "lost" 1 "/w/a.py" 5, ModuleTable.edgeTo "broken",
      .missingAt "unseen" 0 "/w/a.py" 7] }),
    (⟨"broken"⟩, { error := some "cannot be parsed" })]

/-- The second pass fails behind two of the missing imports. One of them was reported for the entry, and the import behind
the error is not met. -/
theorem unresolved_reported_once_missingImports :
    let e := Engine.missingImports
    let ops : List Operation := [.addEntry ⟨"main.py"⟩, .run 5]
    let reports := (e.after ops (.fresh [])).diagnostics.filter fun d => d.kind == "unresolved-import"
    (e.after ops (.fresh [])).diagnostics.map Diagnostic.message =
        ["/w/main.py:1: Cannot find 'gone' as absolute import.",
          "/w/a.py:5: Cannot find 'lost' in package '' as relative import."] ∧
      ((e.meetings ops (.fresh [])).map fun m => (m.importer, m.name)) =
        [(.main, ⟨"gone"⟩), (.main, ⟨"a"⟩), (⟨"a"⟩, ⟨"gone"⟩), (⟨"a"⟩, ⟨"lost"⟩), (⟨"a"⟩, ⟨"broken"⟩)] ∧
      List.Forall₂ (fun n d => ∃ m, ((e.meetings ops (.fresh [])).filter Meeting.isMissing).find? (fun m => m.name == n) =
        some m ∧ d = m.report) [⟨"gone"⟩, ⟨"lost"⟩] reports := by
  intro e ops reports
  have hnames : (((e.meetings ops (.fresh [])).filter Meeting.isMissing).map Meeting.name).eraseDups =
      [⟨"gone"⟩, ⟨"lost"⟩] := by decide +kernel
  have h := (unresolved_reported_once e [] ops).1
  rw [hnames] at h
  exact ⟨by decide +kernel, by decide +kernel, h⟩

end ImportClosure
