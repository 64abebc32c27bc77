import ImportClosure.CommandLine.Invocation
import ImportClosure.Builder.Source
import ImportClosure.Config.Load
import ImportClosure.Config.Rules

/-!
# Running a command

A command reads the configuration, lays the options over it, opens a session over the file tree, and prints what it
found out. A failure says what was being done when it happened.
-/

namespace ImportClosure.CommandLine

/-- What was being done when an error happened. -/
inductive Activity where
  | loadingConfig (path : Path)
  | loadingProfile (path : Path)

/-- An activity in the words of a failure. -/
def Activity.text : Activity → String
  | loadingConfig path => "Failed to load '" ++ path.text ++ "'"
  | loadingProfile path => "Failed to load profile '" ++ path.text ++ "'"

/-- Why a command failed. -/
inductive Failure where
  | engine (activity : Option Activity) (error : Error)
  | emptyPattern
  | noModuleName (file : Path)
  /-- More passes were needed than were allowed. -/
  | unfinished

namespace Failure

/-- The error of the engine behind a failure. -/
def error? : Failure → Option Error
  | engine _ error => some error
  | _ => none

/-- An error with what caused it. -/
def errorText (error : Error) : String :=
  match error with
  | .io cause => error.message ++ ": " ++ cause.message
  | _ => error.message

/-- All that a failure says, from the outside in. -/
def text : Failure → String
  | engine activity error => ((activity.map fun a => a.text ++ ": ").getD "") ++ errorText error
  | emptyPattern => "Cannot make '' absolute: cannot make an empty path absolute"
  | noModuleName file => "Cannot derive a module name from '" ++ file.text ++ "', use --name"
  | unfinished => "The closure is not complete."

/-- The line about a failure. An error that is about the program that is followed speaks for itself. -/
def line (f : Failure) : String :=
  match f.error? with
  | some error => if error.isFatal then error.message else "Error: " ++ f.text
  | none => "Error: " ++ f.text

end Failure

/-- An error of the engine, while something was being done or not. -/
def attempt {α : Type} (activity : Option Activity) (r : Except Error α) : Except Failure α :=
  r.mapError (.engine activity)

/-- A path of the command line as the configuration holds it. -/
def absoluteText (workDir : Path) (path : String) : Except Failure String :=
  if path == "" then .error .emptyPattern else .ok (Path.absolute ⟨path⟩ workDir).text

namespace Overrides

/-- Lays the flags over the options. Following all imports and following none override each other. -/
def flags (o : Overrides) (f : FollowOptions) : FollowOptions :=
  let both := { f with
    standalone := f.standalone || o.standalone
    moduleBuild := f.moduleBuild || o.moduleBuild
    followStdlib := f.followStdlib || o.followStdlib
    showInclusion := f.showInclusion || o.showInclusion
    followTo := f.followTo ++ o.followTo
    nofollowTo := f.nofollowTo ++ o.nofollowTo }
  if o.followNone then { both with followNone := true, followAll := false }
  else if o.followAll then { both with followAll := true, followNone := false }
  else both

/-- Lays what the command line says over a configuration. -/
def apply (o : Overrides) (workDir : Path) (c : Config) : Except Failure Config := do
  let includePaths ← o.includePaths.mapM (absoluteText workDir)
  let includePatterns ← o.includePatterns.mapM (absoluteText workDir)
  let searchPaths ← o.searchPaths.mapM (absoluteText workDir)
  return { c with
    follow := o.flags c.follow
    includes := ⟨c.includes.paths ++ includePaths, c.includes.patterns ++ includePatterns⟩
    search := { c.search with paths := c.search.paths ++ searchPaths } }

end Overrides

/-- A directory, where the empty path stands for the current one. -/
def orHere (dir : Path) : Path :=
  if dir.text == "" then ⟨"."⟩ else dir

/-- The directory that the entries of a configuration file are relative to. -/
def configBase (configPath : Path) : Path :=
  (configPath.parent?.map orHere).getD ⟨"."⟩

/-- The configuration of an invocation. -/
def Invocation.config (i : Invocation) (t : FileTree) : Except Failure Config := do
  let loaded ← attempt (some (.loadingConfig i.configPath)) (Config.load t i.configPath)
  let config ← i.overrides.apply t.workDir loaded
  attempt none config.follow.validate
  return config

/-- The engine for a configuration. The directory of an entry is searched first. -/
def openEngine (t : FileTree) (configPath : Path) (c : Config) (entry : Option Path) :
    Except Failure (Engine (List Identity)) := do
  let base := configBase configPath
  let search := c.search.searchPath t.workDir base
  let search := match entry.bind Path.parent? with
    | some dir => search.prepend t.workDir (orHere dir)
    | none => search
  let rules ← attempt none (PluginRules.ofConfig c.plugins search t)
  let profile ← match c.profilePath with
    | none => pure ({} : ProfileData)
    | some written =>
      let path := Config.resolve configPath written
      attempt (some (.loadingProfile path)) (ProfileData.load t path)
  let policy ← attempt none (Policy.ofOptions c.follow)
  return {
    policy := { policy with
      plugins := rules.plugins
      library := c.library.library t.workDir base
      profile := profile.profile }
    tree := t
    builder := .ofSources search t }

/-- How many passes a run may take. Every pass but the last builds a module that was not built before. -/
def passLimit : Nat := Nat.pow 2 64

/-- The report of the closure of an entry with what the configuration includes. -/
def closure (e : Engine (List Identity)) (includes : Includes) (base entry : Path) : Except Failure Report := do
  let run : Step (List Identity) (Option Report) := do
    let _ ← e.addEntry entry
    e.seedIncludes includes base
    e.runToFixedPoint passLimit
  match ← attempt none (run.run.run { builder := [] }).1 with
  | some report => .ok report
  | none => .error .unfinished

/-- What `decide` prints. -/
def decisionLines (e : Engine (List Identity)) (file : Path) (name : Option ModuleName) (explicit : Bool) :
    Except Failure (List String) := do
  let found := e.tree.moduleAt? file
  let kind := (found.map Prod.snd).getD .source
  match name <|> found.map fun m => ⟨m.1⟩ with
  | none => .error (.noModuleName file)
  | some name =>
    let decision := e.policy.decide ⟨.ofPath e.tree.workDir file, name, kind, explicit⟩
    return [name.text ++ " (" ++ kind.text ++ ")", decision.text] ++
      if decision.isIncluded then ["compilation: " ++ Report.compilationWord (e.policy.compilation name)] else []

/-- Carries out an invocation and gives the lines that it prints. -/
def Invocation.run (t : FileTree) (i : Invocation) : Except Failure (List String) := do
  let config ← i.config t
  match i.command with
  | .follow entry asJson =>
    let engine ← openEngine t i.configPath config (some entry)
    let report ← closure engine config.includes (configBase i.configPath) entry
    return if asJson then [report.toJson.pretty] else report.lines
  | .decide file name explicit =>
    decisionLines (← openEngine t i.configPath config none) file name explicit

/-- Lines as they are printed. -/
def printed (lines : List String) : String :=
  String.join (lines.map (· ++ "\n"))

/-- What a command leaves behind. -/
structure Outcome where
  exitCode : Nat
  output : String := ""
  complaint : String := ""

/-- How to call the program. -/
def usage : List String :=
  ["Usage: [--config <FILE>] follow <ENTRY> [--json] [OPTIONS]",
    "       [--config <FILE>] decide <FILE> [--name <NAME>] [--explicit] [OPTIONS]"]

/-- Carries out a command line over a file tree. -/
def execute (t : FileTree) (arguments : List String) : Outcome :=
  match Invocation.ofArguments arguments with
  | .error .helpWanted => { exitCode := Refusal.helpWanted.exitCode, output := printed usage }
  | .error .malformed => { exitCode := Refusal.malformed.exitCode, complaint := printed usage }
  | .ok invocation =>
    match invocation.run t with
    | .ok lines => { exitCode := 0, output := printed lines }
    | .error failure => { exitCode := 1, complaint := printed [failure.line] }

end ImportClosure.CommandLine
