import ImportClosure.Cache
import ImportClosure.Registry
import ImportClosure.Session.Event
import ImportClosure.Tree.Modules

/-!
# Sessions

A session is one run: what was decided, built, registered and queued so far. What does not change during a run is the
engine. A step may end in an error, and the session is then as the step left it.
-/

namespace ImportClosure

/-- A module that entered the closure. -/
structure NewCode where
  name : ModuleName
  origin : SourceRef
  reason : String

/-- A built module whose imports have not been looked at. -/
structure PendingModule where
  record : ModuleRecord
  uses : List ImportEdge

/-- What a decision is remembered under. -/
structure QueryKey where
  name : ModuleName
  place : List Path.Component
  kind : ModuleKind
  explicit : Bool
  deriving DecidableEq

/-- The key of a query: the file counts by its place. -/
def Query.key (q : Query) : QueryKey :=
  ⟨q.name, q.file.place, q.kind, q.explicit⟩

/-- The state of a run over a builder that remembers a `σ`. -/
structure Session (σ : Type) where
  builder : σ
  /-- The decisions, newest first. -/
  decisions : List (QueryKey × Decision) := []
  cache : Cache ModuleRecord := .empty
  registry : Registry ModuleRecord := .empty
  /-- The modules to be consumed, oldest first. -/
  pending : List PendingModule := []
  /-- The signals that new code appeared, oldest first. -/
  changes : List NewCode := []
  /-- The diagnostics, oldest first. -/
  diagnostics : List Diagnostic := []
  /-- The names that were reported as unresolved. -/
  warned : List ModuleName := []
  /-- The events, newest first. -/
  events : List Event := []
  /-- What became of the modules, newest first. -/
  history : List Milestone := []

/-- What a run works with. -/
structure Engine (σ : Type) where
  policy : Policy
  tree : FileTree
  builder : Builder σ

/-- A step of a session. -/
abbrev Step (σ α : Type) := ExceptT Error (StateM (Session σ)) α

/-- What a step comes to, and the session that it leaves. -/
def Step.ends {σ α : Type} (x : Step σ α) (s : Session σ) : Except Error α × Session σ :=
  (x.run.run s).run

namespace Session

variable {σ : Type}

/-- Notes an event. -/
def note (s : Session σ) (e : Event) : Session σ :=
  { s with events := e :: s.events }

/-- Notes a problem and keeps it for the report. -/
def diagnose (s : Session σ) (d : Diagnostic) : Session σ :=
  { s.note (.diagnosed d) with diagnostics := s.diagnostics ++ [d] }

/-- Reports an import that is not found, once for each name. -/
def warnUnresolved (s : Session σ) (importer : ModuleName) (e : ImportEdge) : Session σ :=
  if s.warned.contains e.name then s
  else
    { s with warned := e.name :: s.warned }.diagnose <|
      if e.level == 0 then .unresolvedAbsolute e.sourceRef e.name
      else .unresolvedRelative e.sourceRef e.name importer.package?

/-- Notes what became of a module. -/
def reach (s : Session σ) (m : Milestone) : Session σ :=
  { s with history := m :: s.history }

/-- Queues a module. -/
def enqueue (s : Session σ) (m : PendingModule) : Session σ :=
  { s.reach (.queued m.record) with pending := s.pending ++ [m] }

/-- Signals that new code appeared. -/
def signal (s : Session σ) (m : ModuleRecord) (reason : String) : Session σ :=
  { s with changes := s.changes ++ [⟨m.name, m.sourceRef, reason⟩] }

/-- Keeps a module unless one of its identity is kept, and tells which one is kept. -/
def keep (s : Session σ) (m : ModuleRecord) : ModuleRecord × Session σ :=
  let (kept, cache) := s.cache.add m
  (kept, { s with cache })

/-- Makes a module a root. -/
def addRoot (s : Session σ) (m : ModuleRecord) : Session σ :=
  { s with registry := s.registry.addRoot m }

end Session

/-- The build that a request for an included module leads to. -/
def RecursionRequest.toBuild (r : RecursionRequest) : BuildRequest :=
  ⟨r.name, r.file, r.kind, false, true⟩

namespace Engine

variable {σ : Type}

/-- Does something to the session. -/
def update (f : Session σ → Session σ) : Step σ Unit :=
  modify f

/-- Notes an event if every step of inclusion is to be logged. -/
def trace (e : Engine σ) (event : Event) : Step σ Unit :=
  if e.policy.options.showInclusion then update fun s => s.note event else pure ()

/-- The decision about a module. A decision that was made before for the same place, name and kind stands. -/
def decide (e : Engine σ) (q : Query) : Step σ Decision := do
  let s ← get
  match s.decisions.lookup q.key with
  | some d => return d
  | none =>
    if e.policy.reachesPlugins q then update fun s => s.note (.encounter q)
    let d := e.policy.decide q
    update fun s => { s with decisions := (q.key, d) :: s.decisions }
    return d

/-- Asks the builder. -/
def build (e : Engine σ) (r : BuildRequest) : Step σ (Option BuildOutcome) := do
  let s ← get
  let (answer, builder) := e.builder.build r s.builder
  set (answer.notes.foldl (fun s what => s.note (.passedOver what)) { s with builder })
  let outcome ← liftExcept answer.result
  if let some o := outcome then update fun s => s.reach (.built o.record o.newlyBuilt)
  return outcome
where
  /-- Ends the step with an error, or goes on with a value. -/
  liftExcept : Except Error (Option BuildOutcome) → Step σ (Option BuildOutcome)
    | .ok outcome => pure outcome
    | .error err => throw err

/-- Keeps a module that was built; if it is new it is queued, and signalled if that is asked for. -/
def accept (o : BuildOutcome) (reason : String) (signalled : Bool) : Step σ ModuleRecord := do
  let (kept, s) := (← get).keep o.record
  set s
  if o.newlyBuilt then
    update fun s => s.enqueue ⟨kept, o.uses⟩
    if signalled then update fun s => s.signal kept reason
  return kept

/-- Gets an included module: the one that is kept, or a new one, for which the plugins are asked first. -/
def recurse (e : Engine σ) (r : RecursionRequest) (signalled : Bool) : Step σ (Option ModuleRecord) := do
  match (← get).cache.get? r.name r.file with
  | some kept => return some kept
  | none =>
    match e.policy.plugins.recursion r with
    | .error what => throw (.forbidden what)
    | .ok () =>
      update fun s => s.note (.recursion r)
      match ← e.build r.toBuild with
      | none => return none
      | some outcome => return some (← accept outcome r.reason signalled)

/-- The record of the entry, made from the one that the builder gives. -/
def entryRecord (e : Engine σ) (m : ModuleRecord) : ModuleRecord :=
  { m with isTop := true, runtimePackage := e.policy.options.runtimePackage }

/-- The build that an entry leads to. -/
def entryBuild (e : Engine σ) (path : Path) : BuildRequest :=
  let file := ModuleFile.ofPath e.tree.workDir path
  ⟨.main, file, ((e.tree.moduleAt? file.path).map Prod.snd).getD .source, true, false⟩

/-- Makes a module that was built the entry: it is kept, becomes a root and is queued. -/
def acceptEntry (e : Engine σ) (o : BuildOutcome) : Step σ ModuleRecord := do
  let (kept, s) := (← get).keep (e.entryRecord o.record)
  set s
  e.trace (.entryAdded kept)
  update fun s => { s with registry := s.registry.setEntry kept }
  update fun s => s.enqueue ⟨kept, o.uses⟩
  return kept

/-- Builds the entry of the program. It runs as the main module. Its syntax errors are not hidden. -/
def addEntry (e : Engine σ) (path : Path) : Step σ ModuleRecord := do
  match ← e.build (e.entryBuild path) with
  | none => throw (.buildFailed (.entry (.ofPath e.tree.workDir path)))
  | some outcome => e.acceptEntry outcome

end Engine

end ImportClosure
