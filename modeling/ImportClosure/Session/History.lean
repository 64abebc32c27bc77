import ImportClosure.Session

/-!
# What a session has done so far

The history of a session tells which modules were built, queued and obtained by their path. Modules count by their
identity here.
-/

namespace ImportClosure

/-- The module that a signal is about. -/
def NewCode.identity (c : NewCode) : Identity :=
  ⟨c.name, ModuleFile.place ⟨c.origin.file⟩⟩

namespace Milestone

/-- The module that was built for the first time. -/
def newBuild? : Milestone → Option Identity
  | built m true => some m.identity
  | _ => none

/-- The module that was queued. -/
def push? : Milestone → Option Identity
  | queued m => some m.identity
  | _ => none

/-- The module that an explicit path led to. -/
def obtained? : Milestone → Option Identity
  | obtained m => some m.identity
  | _ => none

/-- The record of an identity that the builder gave. -/
def buildOf? (i : Identity) : Milestone → Option ModuleRecord
  | built m _ => if m.identity = i then some m else none
  | _ => none

end Milestone

namespace Session

variable {σ : Type}

/-- The modules that were built for the first time, newest first. -/
def newBuilds (s : Session σ) : List Identity :=
  s.history.filterMap Milestone.newBuild?

/-- The modules that were queued, newest first. -/
def pushes (s : Session σ) : List Identity :=
  s.history.filterMap Milestone.push?

/-- The modules that explicit paths led to, newest first. -/
def obtained (s : Session σ) : List Identity :=
  s.history.filterMap Milestone.obtained?

/-- The modules that were signalled, oldest first. -/
def signals (s : Session σ) : List Identity :=
  s.changes.map NewCode.identity

/-- The first record of an identity that the builder gave. -/
def firstBuild? (s : Session σ) (i : Identity) : Option ModuleRecord :=
  s.history.reverse.findSome? (Milestone.buildOf? i)

/-- Whether a module is kept. -/
def Keeps (s : Session σ) (i : Identity) : Prop :=
  (s.cache.find? i).isSome

instance (s : Session σ) (i : Identity) : Decidable (s.Keeps i) :=
  inferInstanceAs (Decidable (_ = true))

/-- A session in which nothing has happened. -/
def fresh (builder : σ) : Session σ :=
  { builder }

end Session

end ImportClosure
