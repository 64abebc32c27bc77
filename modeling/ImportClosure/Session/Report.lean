import ImportClosure.Json
import ImportClosure.Session

/-!
# Reports

What a finished run says: the modules of the closure in the order of their identities, with all that was noted on the
way. A report is written as a document or as lines.
-/

namespace ImportClosure

/-- A module of the closure. -/
structure ModuleSummary where
  record : ModuleRecord
  isRoot : Bool
  compilation : CompilationMode

/-- What a finished run says. -/
structure Report where
  /-- The number of signals of each pass. -/
  passes : List Nat
  roots : List ModuleName
  modules : List ModuleSummary
  newCode : List NewCode
  diagnostics : List Diagnostic
  usageEdges : Nat

/-- The report of a session after these passes. -/
def Engine.report {σ : Type} (e : Engine σ) (s : Session σ) (passes : List Nat) : Report where
  passes := passes
  roots := s.registry.roots.map ModuleRecord.name
  modules := s.cache.sorted.map fun m => ⟨m, s.registry.isRoot m.identity, e.policy.compilation m.name⟩
  newCode := s.changes
  diagnostics := s.diagnostics
  usageEdges := s.registry.usageCount

/-- The document of a name that may be missing. -/
def ModuleName.toJson? (n : Option ModuleName) : Json :=
  (n.map fun name => Json.ofText name.text).getD .null

/-- The document of a reference. -/
def SourceRef.toJson (r : SourceRef) : Json :=
  .record [("file", .ofText r.file.text), ("line", .ofNat r.line)]

/-- The document of a record. -/
def ModuleRecord.toJson (r : ModuleRecord) : Json :=
  .record [
    ("name", .ofText r.name.text),
    ("file", .ofText r.file.text),
    ("kind", .ofText r.kind.text),
    ("is_package", .bool r.isPackage),
    ("is_top", .bool r.isTop),
    ("runtime_package", ModuleName.toJson? r.runtimePackage),
    ("source_ref", r.sourceRef.toJson)]

/-- The document of a module of the closure. -/
def ModuleSummary.toJson (m : ModuleSummary) : Json :=
  .record [
    ("name", .ofText m.record.name.text),
    ("file", .ofText m.record.file.text),
    ("kind", .ofText m.record.kind.text),
    ("is_package", .bool m.record.isPackage),
    ("is_root", .bool m.isRoot),
    ("compilation", .ofText m.compilation.text)]

/-- The document of a signal. -/
def NewCode.toJson (c : NewCode) : Json :=
  .record [("module", .ofText c.name.text), ("origin", c.origin.toJson), ("reason", .ofText c.reason)]

/-- The document of a diagnostic. -/
def Diagnostic.toJson (d : Diagnostic) : Json :=
  .record [("kind", .ofText d.kind), ("message", .ofText d.message)]

namespace Report

/-- The document of a report. -/
def toJson (r : Report) : Json :=
  .record [
    ("passes", .array (r.passes.map .ofNat)),
    ("roots", .array (r.roots.map fun name => .ofText name.text)),
    ("modules", .array (r.modules.map ModuleSummary.toJson)),
    ("new_code", .array (r.newCode.map NewCode.toJson)),
    ("diagnostics", .array (r.diagnostics.map Diagnostic.toJson)),
    ("usage_edges", .ofNat r.usageEdges)]

/-- The word for a compilation mode in lines that people read. -/
def compilationWord : CompilationMode → String
  | .compiled => "Compiled"
  | .bytecode => "Bytecode"

/-- The line of a module. -/
def moduleLine (m : ModuleSummary) : String :=
  "  " ++ (if m.isRoot then "*" else " ") ++ " " ++ m.record.name.text ++ " [" ++ m.record.kind.text ++ ", " ++
    compilationWord m.compilation ++ "] " ++ m.record.file.text

/-- The lines of a report. -/
def lines (r : Report) : List String :=
  ["Roots (" ++ Text.decimal r.roots.length ++ "):"] ++ r.roots.map (fun name => "  - " ++ name.text) ++
    ["Modules (" ++ Text.decimal r.modules.length ++ "):"] ++ r.modules.map moduleLine ++
    (if r.diagnostics.isEmpty then [] else ["Warnings: " ++ Text.decimal r.diagnostics.length]) ++
    ["Fixed point after " ++ Text.decimal r.passes.length ++ " passes, " ++ Text.decimal r.usageEdges ++
      " usage edges."]

end Report

end ImportClosure
