import ImportClosure.Config

/-!
# Plugin rules at work

The plugin layer that a configuration describes. Of the decision rules the first that takes a name decides. A forbidden
module is refused before it is built, and before a module that needs it implicitly gives any of its other imports.
-/

namespace ImportClosure

/-- A decision rule whose pattern has been read. -/
structure ReadDecisionRule where
  pattern : NamePattern
  verdict : Verdict
  reason : Option String

/-- A forbidding rule whose pattern has been read. -/
structure ReadForbidRule where
  pattern : NamePattern
  avoiding : String

/-- Plugin rules whose patterns have been read, with the search path for implicit imports. -/
structure PluginRules where
  decisions : List ReadDecisionRule
  implicit : List ImplicitRule
  forbid : List ReadForbidRule
  bytecode : NamePatterns
  search : SearchPath
  tree : FileTree

namespace PluginRules

/-- Reads the patterns of a configuration. -/
def ofConfig (c : PluginConfig) (search : SearchPath) (tree : FileTree) : Except Error PluginRules := do
  let decisions ← c.decisions.mapM fun rule => do
    return ⟨← NamePattern.ofText rule.pattern, rule.verdict, rule.reason⟩
  let forbid ← c.forbid.mapM fun rule => do return ⟨← NamePattern.ofText rule.pattern, rule.avoiding⟩
  let bytecode ← NamePatterns.ofTexts c.bytecode
  return ⟨decisions, c.implicit, forbid, bytecode, search, tree⟩

/-- The decision of the first rule that takes a name. -/
def decide? (r : PluginRules) (name : ModuleName) : Option Decision :=
  r.decisions.findSome? fun rule =>
    (rule.pattern.hit? name).map fun hit =>
      rule.verdict.decision ((rule.reason.map .stated).getD (.configured name hit))

/-- Refuses a name that a forbidding rule takes. -/
def refuse (r : PluginRules) (name : ModuleName) : Except ForbiddenImport Unit :=
  match r.forbid.find? fun rule => (rule.pattern.hit? name).isSome with
  | some rule => .error ⟨name, rule.avoiding, .unattributed⟩
  | none => .ok ()

/-- The names that a module needs without importing them, over all rules for it. -/
def implicitNames (r : PluginRules) (name : ModuleName) : List ModuleName :=
  (r.implicit.filter fun rule => rule.name == name.text).flatMap fun rule => rule.imports.map ModuleName.mk

/-- An implicit import, looked up on the search path. -/
def implicitImport (r : PluginRules) (user name : ModuleName) : Except ForbiddenImport ImplicitImport := do
  r.refuse name
  let located := r.search.locate r.tree name
  .ok {
    name
    file := located.map Prod.fst
    kind := (located.map Prod.snd).getD .source
    reason := "Module '" ++ user.text ++ "' needs it implicitly." }

/-- The plugin layer of the rules. -/
def plugins (r : PluginRules) : Plugins where
  encounter _ name _ := r.decide? name
  recursion request := r.refuse request.name
  implicitImports m := (r.implicitNames m.name).mapM (r.implicitImport m.name)
  compilation name := if r.bytecode.takes name then some .bytecode else none

end PluginRules

end ImportClosure
