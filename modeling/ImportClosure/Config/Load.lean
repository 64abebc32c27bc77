import ImportClosure.Config
import ImportClosure.Toml.Document

/-!
# Configuration files

A configuration as a TOML document says it. What it does not mention holds by default, and what no configuration knows
is passed over. A record is written as a table, in which a known key stands once at most, or as an array of its fields
from the first on.
-/

namespace ImportClosure

namespace Toml.Value

/-- A text. -/
def text? : Value → Option String
  | string text => some text
  | _ => none

/-- A truth value. -/
def flag? : Value → Option Bool
  | boolean b => some b
  | _ => none

/-- A list of items. -/
def list? {α : Type} (item : Value → Option α) : Value → Option (List α)
  | array items => items.mapM item
  | _ => none

/-- A list of texts. -/
def texts? : Value → Option (List String) :=
  list? text?

/-- The values of a record's fields. A time is a record that says nothing. -/
def record? (fields : List String) : Value → Option (List (Option Value))
  | table _ entries =>
    fields.mapM fun field =>
      match entries.filter fun entry => entry.1 == field with
      | [] => some none
      | [entry] => some (some entry.2)
      | _ => none
  | array items =>
    if items.length ≤ fields.length then some (fields.mapIdx fun i _ => items[i]?) else none
  | time _ => some (fields.map fun _ => none)
  | _ => none

/-- What a field says, or what holds if it says nothing. -/
def orElse? {α : Type} (field : Option Value) (read : Value → Option α) (default : α) : Option α :=
  match field with
  | none => some default
  | some value => read value

/-- What a field says, if it says something. -/
def maybe? {α : Type} (field : Option Value) (read : Value → Option α) : Option (Option α) :=
  match field with
  | none => some none
  | some value => (read value).map some

end Toml.Value

open Toml (Value)
open Toml.Value

/-- The options that a value says. -/
def FollowOptions.ofToml? (v : Value) : Option FollowOptions := do
  match ← v.record? ["standalone", "module_build", "package_mode", "follow_stdlib", "follow_all", "follow_none",
    "follow_to", "nofollow_to", "bytecode_modules", "show_inclusion"] with
  | [standalone, moduleBuild, packageMode, followStdlib, followAll, followNone, followTo, nofollowTo, bytecodeModules,
      showInclusion] =>
    return {
      standalone := ← orElse? standalone flag? false
      moduleBuild := ← orElse? moduleBuild flag? false
      packageMode := ← maybe? packageMode text?
      followStdlib := ← orElse? followStdlib flag? false
      followAll := ← orElse? followAll flag? false
      followNone := ← orElse? followNone flag? false
      followTo := ← orElse? followTo texts? []
      nofollowTo := ← orElse? nofollowTo texts? []
      bytecodeModules := ← orElse? bytecodeModules texts? []
      showInclusion := ← orElse? showInclusion flag? false }
  | _ => none

/-- The paths and patterns to include that a value says. -/
def Includes.ofToml? (v : Value) : Option Includes := do
  match ← v.record? ["paths", "patterns"] with
  | [paths, patterns] => return { paths := ← orElse? paths texts? [], patterns := ← orElse? patterns texts? [] }
  | _ => none

/-- The library that a value says. -/
def LibraryConfig.ofToml? (v : Value) : Option LibraryConfig := do
  let default : LibraryConfig := {}
  match ← v.record? ["roots", "no_auto_inclusion"] with
  | [roots, noAutoInclusion] =>
    return {
      roots := ← orElse? roots texts? default.roots
      noAutoInclusion := ← orElse? noAutoInclusion texts? default.noAutoInclusion }
  | _ => none

/-- The search path that a value says. -/
def SearchConfig.ofToml? (v : Value) : Option SearchConfig := do
  let default : SearchConfig := {}
  match ← v.record? ["paths", "builtin_modules"] with
  | [paths, builtinModules] =>
    return {
      paths := ← orElse? paths texts? default.paths
      builtinModules := ← orElse? builtinModules texts? default.builtinModules }
  | _ => none

/-- The verdict that a value says: its word, or a table with nothing but an empty table under the word. -/
def Verdict.ofToml? : Value → Option Verdict
  | .string word => ofText? word
  | .table .inline [(word, .table _ [])] => ofText? word
  | _ => none

/-- The decision rule that a value says. -/
def DecisionRule.ofToml? (v : Value) : Option DecisionRule := do
  match ← v.record? ["pattern", "decision", "reason"] with
  | [some pattern, some verdict, reason] =>
    return ⟨← pattern.text?, ← Verdict.ofToml? verdict, ← maybe? reason text?⟩
  | _ => none

/-- The implicit imports that a value says. -/
def ImplicitRule.ofToml? (v : Value) : Option ImplicitRule := do
  match ← v.record? ["module", "imports"] with
  | [some name, some imports] => return ⟨← name.text?, ← imports.texts?⟩
  | _ => none

/-- The forbidden import that a value says. -/
def ForbidRule.ofToml? (v : Value) : Option ForbidRule := do
  match ← v.record? ["pattern", "avoid"] with
  | [some pattern, some avoiding] => return ⟨← pattern.text?, ← avoiding.text?⟩
  | _ => none

/-- The plugin rules that a value says. -/
def PluginConfig.ofToml? (v : Value) : Option PluginConfig := do
  match ← v.record? ["decisions", "implicit", "forbid", "bytecode"] with
  | [decisions, implicit, forbid, bytecode] =>
    return {
      decisions := ← orElse? decisions (list? DecisionRule.ofToml?) []
      implicit := ← orElse? implicit (list? ImplicitRule.ofToml?) []
      forbid := ← orElse? forbid (list? ForbidRule.ofToml?) []
      bytecode := ← orElse? bytecode texts? [] }
  | _ => none

/-- The path of a profile that a value says. -/
def profilePathOfToml? (v : Value) : Option (Option String) := do
  match ← v.record? ["path"] with
  | [path] => maybe? path text?
  | _ => none

/-- The configuration that a document says. -/
def Config.ofToml? (v : Value) : Option Config := do
  match ← v.record? ["follow", "include", "library", "search", "profile", "plugins"] with
  | [follow, includes, library, search, profile, plugins] =>
    return {
      follow := ← orElse? follow FollowOptions.ofToml? {}
      includes := ← orElse? includes Includes.ofToml? {}
      library := ← orElse? library LibraryConfig.ofToml? {}
      search := ← orElse? search SearchConfig.ofToml? {}
      profilePath := ← orElse? profile profilePathOfToml? none
      plugins := ← orElse? plugins PluginConfig.ofToml? {} }
  | _ => none

/-- Reads the configuration in a file. A file that is not there says nothing. -/
def Config.load (t : FileTree) (path : Path) : Except Error Config :=
  match t.readText path with
  | .error .notFound => .ok {}
  | .error cause => .error (.io cause)
  | .ok text =>
    match (Toml.read? text).bind Config.ofToml? with
    | none => .error .toml
    | some config => do
      config.follow.validate
      .ok config

end ImportClosure
