import ImportClosure.CommandLine.Arguments
import ImportClosure.Config

/-!
# Invocations

The two commands and their options. `follow` computes the closure of an entry, `decide` explains the decision about one
file. What is said on the command line comes on top of the configuration.
-/

namespace ImportClosure.CommandLine

/-- What both commands may say on top of the configuration. -/
structure Overrides where
  standalone : Bool := false
  moduleBuild : Bool := false
  followAll : Bool := false
  followNone : Bool := false
  followStdlib : Bool := false
  followTo : List String := []
  nofollowTo : List String := []
  includePaths : List String := []
  includePatterns : List String := []
  searchPaths : List String := []
  showInclusion : Bool := false

/-- What is to be done. -/
inductive Command where
  | follow (entry : Path) (asJson : Bool)
  | decide (file : Path) (name : Option ModuleName) (explicit : Bool)

/-- All that a command line says. -/
structure Invocation where
  configPath : Path
  command : Command
  overrides : Overrides

/-- The configuration file that is read if none is named. -/
def defaultConfig : String := "trawl.toml"

/-- The options before the command. -/
def generalOptions : List OptionSpec :=
  [{ long := "config", short := some 'c', kind := .path }]

/-- The options of both commands. -/
def overrideOptions : List OptionSpec :=
  [{ long := "standalone" }, { long := "module" }, { long := "follow-imports" }, { long := "nofollow-imports" },
    { long := "follow-stdlib" }, { long := "follow-to", kind := .text, repeats := true },
    { long := "nofollow-to", kind := .text, repeats := true },
    { long := "include-path", kind := .path, repeats := true },
    { long := "include-pattern", kind := .text, repeats := true },
    { long := "search-path", kind := .path, repeats := true }, { long := "show-inclusion" }]

/-- The options of `follow`. -/
def followOptions : List OptionSpec :=
  { long := "json" } :: overrideOptions

/-- The options of `decide`. -/
def decideOptions : List OptionSpec :=
  { long := "name", short := some 'n', kind := .text } :: { long := "explicit" } :: overrideOptions

/-- What the options say on top of the configuration. -/
def Overrides.ofGiven (g : Given) : Overrides where
  standalone := g.has "standalone"
  moduleBuild := g.has "module"
  followAll := g.has "follow-imports"
  followNone := g.has "nofollow-imports"
  followStdlib := g.has "follow-stdlib"
  followTo := g.values "follow-to"
  nofollowTo := g.values "nofollow-to"
  includePaths := g.values "include-path"
  includePatterns := g.values "include-pattern"
  searchPaths := g.values "search-path"
  showInclusion := g.has "show-inclusion"

/-- Reads the options of a command and its one word, and says what is to be done with it. -/
def commandOf (specs : List OptionSpec) (command : Given → Path → Command) (arguments : List String) :
    Except Refusal (Command × Overrides) := do
  match ← readArguments specs 1 none {} arguments with
  | (g, []) =>
    match g.words with
    | [word] => .ok (command g ⟨word⟩, .ofGiven g)
    | _ => .error .malformed
  | _ => .error .malformed

/-- Reads a command line. -/
def Invocation.ofArguments (arguments : List String) : Except Refusal Invocation := do
  let (general, behind) ← readArguments generalOptions 0 none {} arguments
  let configPath : Path := ⟨(general.values "config").head?.getD defaultConfig⟩
  match behind with
  | "follow" :: rest =>
    let (command, overrides) ← commandOf followOptions (fun g entry => .follow entry (g.has "json")) rest
    return { configPath, command, overrides }
  | "decide" :: rest =>
    let (command, overrides) ←
      commandOf decideOptions
        (fun g file => .decide file ((g.values "name").head?.map ModuleName.mk) (g.has "explicit")) rest
    return { configPath, command, overrides }
  | "help" :: topics => .error (if isHelpTopic topics then .helpWanted else .malformed)
  | _ => .error .malformed
where
  /-- Whether there is help on something. -/
  isHelpTopic : List String → Bool
    | [] => true
    | [topic] => ["follow", "decide", "help"].contains topic
    | _ => false

end ImportClosure.CommandLine
