import ImportClosure.Json
import ImportClosure.Path
import ImportClosure.Policy.Options
import ImportClosure.Policy.Profile
import ImportClosure.SearchPath
import ImportClosure.Session.Closure

/-!
# Configurations

All that a configuration file can say, with what holds when it says nothing.
-/

namespace ImportClosure

/-- Where the standard library is, as it is written. -/
structure LibraryConfig where
  roots : List String := []
  noAutoInclusion : List String :=
    ["idlelib", "tkinter", "turtle", "turtledemo", "test", "lib2to3", "ensurepip", "venv", "pydoc_data"]

/-- Where imports are looked up, as it is written. -/
structure SearchConfig where
  paths : List String := []
  builtinModules : List String :=
    ["sys", "builtins", "_imp", "_io", "_thread", "_warnings", "_weakref", "atexit", "errno", "gc", "itertools",
      "marshal", "math", "posix", "nt", "time"]

/-- What a rule decides. -/
inductive Verdict where
  | included
  | excluded
  | undecided
  deriving DecidableEq

/-- The word for a verdict. -/
def Verdict.text : Verdict → String
  | included => "include"
  | excluded => "exclude"
  | undecided => "undecided"

/-- The verdict of a word. -/
def Verdict.ofText? (s : String) : Option Verdict :=
  [included, excluded, undecided].find? fun v => v.text == s

/-- The decision of a verdict. -/
def Verdict.decision (v : Verdict) (reason : Reason) : Decision :=
  match v with
  | included => .included reason
  | excluded => .excluded reason
  | undecided => .undecided reason

/-- A decision about the modules that a pattern takes. -/
structure DecisionRule where
  pattern : String
  verdict : Verdict
  reason : Option String := none

/-- What a module needs without importing it. -/
structure ImplicitRule where
  name : String
  imports : List String

/-- Modules that must not be followed, and what they would bring in. -/
structure ForbidRule where
  pattern : String
  avoiding : String

/-- Rules of a plugin layer. -/
structure PluginConfig where
  decisions : List DecisionRule := []
  implicit : List ImplicitRule := []
  forbid : List ForbidRule := []
  bytecode : List String := []

/-- All that a configuration file can say. -/
structure Config where
  follow : FollowOptions := {}
  includes : Includes := {}
  library : LibraryConfig := {}
  search : SearchConfig := {}
  profilePath : Option String := none
  plugins : PluginConfig := {}

/-- The library that is configured, relative to a directory. -/
def LibraryConfig.library (c : LibraryConfig) (workDir base : Path) : Library :=
  (LibraryRoots.ofPaths workDir (c.roots.map fun root => base.join ⟨root⟩) c.noAutoInclusion).library

/-- The search path that is configured, relative to a directory. -/
def SearchConfig.searchPath (c : SearchConfig) (workDir base : Path) : SearchPath :=
  .ofDirs workDir (c.paths.map fun dir => base.join ⟨dir⟩) c.builtinModules

/-- A path that a configuration file mentions, taken from the file's directory. -/
def Config.resolve (configPath : Path) (value : String) : Path :=
  (configPath.parent?.getD configPath).join ⟨value⟩

/-! ## Documents -/

/-- The document of a list of texts. -/
def Json.ofTexts (texts : List String) : Json :=
  .array (texts.map .ofText)

/-- The document of a text that may be missing. -/
def Json.ofText? (text : Option String) : Json :=
  (text.map Json.ofText).getD .null

/-- The document of options. -/
def FollowOptions.toJson (o : FollowOptions) : Json :=
  .record [
    ("standalone", .bool o.standalone),
    ("module_build", .bool o.moduleBuild),
    ("package_mode", .ofText? o.packageMode),
    ("follow_stdlib", .bool o.followStdlib),
    ("follow_all", .bool o.followAll),
    ("follow_none", .bool o.followNone),
    ("follow_to", .ofTexts o.followTo),
    ("nofollow_to", .ofTexts o.nofollowTo),
    ("bytecode_modules", .ofTexts o.bytecodeModules),
    ("show_inclusion", .bool o.showInclusion)]

/-- The document of a decision rule. -/
def DecisionRule.toJson (r : DecisionRule) : Json :=
  .record [("pattern", .ofText r.pattern), ("decision", .ofText r.verdict.text), ("reason", .ofText? r.reason)]

/-- The document of an implicit import. -/
def ImplicitRule.toJson (r : ImplicitRule) : Json :=
  .record [("module", .ofText r.name), ("imports", .ofTexts r.imports)]

/-- The document of a forbidden import. -/
def ForbidRule.toJson (r : ForbidRule) : Json :=
  .record [("pattern", .ofText r.pattern), ("avoid", .ofText r.avoiding)]

/-- The document of plugin rules. -/
def PluginConfig.toJson (c : PluginConfig) : Json :=
  .record [
    ("decisions", .array (c.decisions.map DecisionRule.toJson)),
    ("implicit", .array (c.implicit.map ImplicitRule.toJson)),
    ("forbid", .array (c.forbid.map ForbidRule.toJson)),
    ("bytecode", .ofTexts c.bytecode)]

/-- The document of a configuration. -/
def Config.toJson (c : Config) : Json :=
  .record [
    ("follow", c.follow.toJson),
    ("include", .record [("paths", .ofTexts c.includes.paths), ("patterns", .ofTexts c.includes.patterns)]),
    ("library", .record [("roots", .ofTexts c.library.roots),
      ("no_auto_inclusion", .ofTexts c.library.noAutoInclusion)]),
    ("search", .record [("paths", .ofTexts c.search.paths),
      ("builtin_modules", .ofTexts c.search.builtinModules)]),
    ("profile", .record [("path", .ofText? c.profilePath)]),
    ("plugins", c.plugins.toJson)]

end ImportClosure
