import ImportClosure.Policy.Hooks
import ImportClosure.Policy.Options

/-!
# The policy

Whether to follow into a module. `Policy.decide` asks its rules in a fixed order and the first that speaks wins: what is
impossible comes before what a plugin says, a plugin before the profile, the profile before the patterns, and the
patterns before the general options.
-/

namespace ImportClosure

/-- All that decisions depend on. -/
structure Policy where
  options : FollowOptions
  followTo : NamePatterns
  nofollowTo : NamePatterns
  bytecodeModules : NamePatterns
  plugins : Plugins := {}
  library : Library := {}
  profile : Profile := {}

/-- A module that is asked about. -/
structure Query where
  file : ModuleFile
  name : ModuleName
  kind : ModuleKind
  /-- The module was asked for by a path or pattern and not by an import. -/
  explicit : Bool

/-- What tells the module that is asked about from others. -/
def Query.identity (q : Query) : Identity :=
  ⟨q.name, q.file.place⟩

/-- What an import asks about, if it has a file. -/
def ImportEdge.query? (e : ImportEdge) : Option Query :=
  e.file.map fun file => ⟨file, e.name, e.kind, false⟩

/-- What an import that a plugin declares asks about, if it has a file. -/
def ImplicitImport.query? (i : ImplicitImport) : Option Query :=
  i.file.map fun file => ⟨file, i.name, i.kind, false⟩

namespace Policy

/-- The policy of these options, once they have been found to be in order. -/
def ofOptions (o : FollowOptions) : Except Error Policy := do
  o.validate
  let followTo ← NamePatterns.ofTexts o.followTo
  let nofollowTo ← NamePatterns.ofTexts o.nofollowTo
  let bytecodeModules ← NamePatterns.ofTexts o.bytecodeModules
  .ok { options := o, followTo, nofollowTo, bytecodeModules }

/-- How a module would end up in the artifact. -/
def compilation (p : Policy) (name : ModuleName) : CompilationMode :=
  match p.plugins.compilation name with
  | some mode => mode
  | none => if p.bytecodeModules.takes name then .bytecode else .compiled

/-- The entry is not followed a second time, in package mode not under its package's name either. -/
def mainRule (p : Policy) (q : Query) : Option Decision :=
  if q.name.isMain then some (.excluded .mainNotTwice)
  else if p.options.inPackageMode && !p.options.moduleBuild && q.name.basename == ModuleName.main.text &&
      q.name.package? == p.options.runtimePackage then
    some (.excluded .mainInPackage)
  else none

/-- Whether the first two rules let a query through to the plugins. -/
def reachesPlugins (p : Policy) (q : Query) : Bool :=
  (p.mainRule q).isNone

/-- A plugin decides. -/
def pluginRule (p : Policy) (q : Query) : Option Decision :=
  p.plugins.encounter q.file q.name q.kind

/-- Extension modules can be carried by a self-contained artifact only. -/
def extensionRule (p : Policy) (q : Query) : Option Decision :=
  if q.kind = .extension then
    some (if p.options.standalone then .included .extensionStandalone else .excluded .extensionNotInspectable)
  else none

/-- The profile decides about what would be compiled, outside of the library or when the library is followed. -/
def profileRule (p : Policy) (q : Query) : Option Decision :=
  if (!p.library.holds q.file || p.options.followStdlib) && p.compilation q.name = .compiled then
    (p.profile.decide? q.name q.kind).map fun follow => .ofBool follow .profile
  else none

/-- Names that are never followed. -/
def neverFollowRule (p : Policy) (q : Query) : Option Decision :=
  (p.nofollowTo.firstHit q.name).map fun hit => .excluded (.neverFollow q.name hit)

/-- Names that are always followed. -/
def alwaysFollowRule (p : Policy) (q : Query) : Option Decision :=
  (p.followTo.firstHit q.name).map fun hit => .included (.alwaysFollow q.name hit)

/-- Modules that were asked for by their path. -/
def explicitRule (q : Query) : Option Decision :=
  if q.explicit then some (.included .explicitPath) else none

/-- The library, when it is followed. -/
def stdlibRule (p : Policy) (q : Query) : Option Decision :=
  if p.library.holds q.file && p.options.followStdlib then some (.included .followStdlib) else none

/-- Everything outside of the library, and the library's modules that nothing else would include. -/
def followAllRule (p : Policy) (q : Query) : Option Decision :=
  if !p.options.followAll then none
  else if !p.library.holds q.file then some (.included .followAll)
  else if p.library.isNoAuto q.name then some (.included .followAllNoAuto)
  else none

/-- What is left when no rule speaks. -/
def fallback (p : Policy) : Decision :=
  .undecided (if p.options.followNone then .followNone else .byDefault)

/-- The rules in their order. -/
def rules (p : Policy) : List (Query → Option Decision) :=
  [p.mainRule, p.pluginRule, p.extensionRule, p.profileRule, p.neverFollowRule, p.alwaysFollowRule, explicitRule,
    p.stdlibRule, p.followAllRule]

/-- The decision about a module: the first rule that speaks wins. -/
def decide (p : Policy) (q : Query) : Decision :=
  (p.rules.findSome? fun rule => rule q).getD p.fallback

end Policy

end ImportClosure
