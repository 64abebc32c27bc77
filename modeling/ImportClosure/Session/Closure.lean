import ImportClosure.Session.Consume
import ImportClosure.Session.Report
import ImportClosure.Session.Walk

/-!
# The closure

A pass consumes the modules that are queued when it begins; what it builds is queued for the next one. The closure is
complete after a pass that signals nothing and leaves nothing queued.
-/

namespace ImportClosure

/-- Paths and filename patterns that are included whatever is imported. -/
structure Includes where
  paths : List String := []
  patterns : List String := []

namespace Engine

variable {σ : Type}

/-- Walks everything that is to be included, relative to a directory. -/
def seedIncludes (e : Engine σ) (i : Includes) (base : Path) : Step σ Unit := do
  i.paths.forM fun p => e.walk (.path (base.join ⟨p⟩) none)
  i.patterns.forM fun p => e.walk (.pattern (base.join ⟨p⟩).text)

/-- Consumes a queued module. -/
def consume (e : Engine σ) (m : PendingModule) : Step σ Unit :=
  e.consider m.record m.uses

/-- Consumes every module that is queued now. Gives the number of signals. -/
def runPass (e : Engine σ) : Step σ Nat := do
  let s ← get
  set { s with pending := [] }
  s.pending.forM e.consume
  return (← get).changes.length - s.changes.length

/-- Passes until nothing changes, at most `bound` of them; the signals of each pass, or nothing if the bound was too
small. -/
def runPasses (e : Engine σ) : Nat → Step σ (Option (List Nat))
  | 0 => pure none
  | bound + 1 => do
    let signals ← e.runPass
    if signals == 0 && (← get).pending.isEmpty then return some [signals]
    else return (← e.runPasses bound).map (signals :: ·)

/-- Passes until nothing changes and reports, if `bound` passes are enough. -/
def runToFixedPoint (e : Engine σ) (bound : Nat) : Step σ (Option Report) := do
  match ← e.runPasses bound with
  | none => return none
  | some passes =>
    update fun s => s.note .closureComplete
    return some (e.report (← get) passes)

end Engine

end ImportClosure
