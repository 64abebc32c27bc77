import ImportClosure.Builder

/-!
# Builders from a table

A builder that looks up what it answers under the name that is requested. It remembers the requests for which it built
something, newest first, and builds again whenever it is asked.
-/

namespace ImportClosure

/-- What is known of a module. -/
structure TableModule where
  uses : List ImportEdge := []
  isPackage : Bool := false
  /-- The module cannot be built. -/
  broken : Bool := false
  /-- The module counts as built before. -/
  prebuilt : Bool := false
  /-- Building the module is an error with this text. -/
  error : Option String := none

namespace TableModule

/-- The answer for a module that is known. -/
def answer (m : TableModule) (r : BuildRequest) : BuildAnswer :=
  match m.error with
  | some text => { result := .error (.buildFailed (.stated text)) }
  | none =>
    if m.broken then { result := .ok none }
    else
      let record : ModuleRecord := { name := r.name, file := r.file, kind := r.kind, isPackage := m.isPackage }
      { result := .ok (some ⟨record, m.uses, !m.prebuilt⟩) }

/-- Whether a module is built when it is asked for. -/
def builds (m : TableModule) : Bool :=
  m.error.isNone && !m.broken

end TableModule

/-- The builder of a table. -/
def Builder.ofTable (table : List (ModuleName × TableModule)) : Builder (List BuildRequest) where
  build r built :=
    match table.lookup r.name with
    | none => ({ result := .ok none }, built)
    | some m => (m.answer r, if m.builds then r :: built else built)

end ImportClosure
