import ImportClosure.Session

/-!
# Consuming a module

The edges of a module are followed one after the other, then the imports that the plugins declare for it. The first
error ends this, and a forbidden import is attributed to the edge that led to it.
-/

namespace ImportClosure.Engine

variable {σ : Type}

/-- Attributes a forbidden import that a step may end in. -/
def attributed {α : Type} (site : ImportSite) (step : Step σ α) : Step σ α :=
  step.adapt (Error.withSite site)

/-- Follows one edge if the policy includes its target, and notes the use. -/
def followEdge (e : Engine σ) (m : ModuleRecord) (name : ModuleName) (file : ModuleFile) (kind : ModuleKind)
    (at_ : SourceRef) (tag : UsageTag) : Step σ Unit := do
  match ← e.decide ⟨file, name, kind, false⟩ with
  | .included reason =>
    match ← e.recurse ⟨name, file, kind, some m.name, some at_, reason.text⟩ true with
    | some used => update fun s => { s with registry := s.registry.addUse used m tag reason.text (some at_) }
    | none => pure ()
  | .excluded _ | .undecided _ => pure ()

/-- Reports an import edge that is not found. -/
def reportMissing (m : ModuleRecord) (edge : ImportEdge) : Step σ Unit :=
  if edge.finding = .notFound then update fun s => s.warnUnresolved m.name edge else pure ()

/-- Follows an import edge; one that is not found is reported. -/
def considerEdge (e : Engine σ) (m : ModuleRecord) (edge : ImportEdge) : Step σ Unit := do
  reportMissing m edge
  match edge.file with
  | none => pure ()
  | some file =>
    attributed (.explicit m.name edge.sourceRef) <|
      e.followEdge m edge.name file edge.kind edge.sourceRef .statement

/-- Follows an import that a plugin declares. -/
def considerImplicit (e : Engine σ) (m : ModuleRecord) (i : ImplicitImport) : Step σ Unit :=
  match i.file with
  | none => pure ()
  | some file => attributed (.implicit m.name) (e.followEdge m i.name file i.kind m.sourceRef .plugin)

/-- The imports that the plugins declare for a module. -/
def implicitImports (e : Engine σ) (m : ModuleRecord) : Step σ (List ImplicitImport) :=
  match e.policy.plugins.implicitImports m with
  | .ok imports => pure imports
  | .error what => throw ((Error.forbidden what).implicitIn m.name)

/-- Follows all imports of a module. -/
def consider (e : Engine σ) (m : ModuleRecord) (edges : List ImportEdge) : Step σ Unit := do
  edges.forM (e.considerEdge m)
  (← e.implicitImports m).forM (e.considerImplicit m)

end ImportClosure.Engine
