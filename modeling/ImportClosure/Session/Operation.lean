import ImportClosure.Session.Closure

/-!
# Operations

What is done to a session from outside. A sequence of operations goes on behind those that end in an error (`after`), or
stops at the first of them (`performAll`).
-/

namespace ImportClosure

/-- Something that is done to a session. -/
inductive Operation where
  | addEntry (path : Path)
  /-- An explicit path or pattern is walked. -/
  | walk (item : WalkItem)
  | seed (includes : Includes) (base : Path)
  | pass
  /-- Passes until nothing changes, at most `bound` of them. -/
  | run (bound : Nat)
  | consider (m : ModuleRecord) (edges : List ImportEdge)
  | recurse (r : RecursionRequest) (signalled : Bool)
  | decide (q : Query)

namespace Operation

variable {σ : Type}

/-- Whether an operation builds the entry. -/
def isEntry : Operation → Bool
  | addEntry _ => true
  | _ => false

/-- Whether an operation walks explicit paths. -/
def isWalk : Operation → Bool
  | walk _ | seed .. => true
  | _ => false

/-- Whether an operation consumes what is queued. -/
def isPass : Operation → Bool
  | pass | run _ => true
  | _ => false

/-- Whether an operation asks for the main module by its name. -/
def asksForMain : Operation → Bool
  | recurse r _ => r.name.isMain
  | _ => false

/-- Does an operation; what it answers is dropped. -/
def perform (e : Engine σ) : Operation → Step σ Unit
  | addEntry path => do let _ ← e.addEntry path
  | walk item => e.walk item
  | seed includes base => e.seedIncludes includes base
  | pass => do let _ ← e.runPass
  | run bound => do let _ ← e.runToFixedPoint bound
  | consider m edges => e.consider m edges
  | recurse r signalled => do let _ ← e.recurse r signalled
  | decide q => do let _ ← e.decide q

end Operation

namespace Engine

variable {σ : Type}

/-- The session that an operation leaves, with or without an error. -/
def next (e : Engine σ) (s : Session σ) (op : Operation) : Session σ :=
  ((op.perform e).ends s).2

/-- The session that operations leave, whichever of them end in an error. -/
def after (e : Engine σ) (ops : List Operation) (s : Session σ) : Session σ :=
  ops.foldl e.next s

/-- Does operations one after the other, up to the first error. -/
def performAll (e : Engine σ) (ops : List Operation) : Step σ Unit :=
  ops.forM fun op => op.perform e

end Engine

end ImportClosure
