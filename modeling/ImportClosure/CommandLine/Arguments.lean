/-!
# Arguments

Which options, option values and words a list of arguments is made of. An option is long, behind two dashes, or short,
behind one; its value is attached or the next argument, which must not look like an option itself. Behind two bare
dashes every argument is a word.
-/

namespace ImportClosure.CommandLine

/-- What an option takes: nothing, any text, or a path, which is not empty. -/
inductive OptionKind where
  | flag
  | text
  | path
  deriving DecidableEq

/-- An option that a command knows. -/
structure OptionSpec where
  long : String
  short : Option Char := none
  kind : OptionKind := .flag
  /-- Whether it may be given more than once. -/
  repeats : Bool := false

/-- Why arguments are not carried out. -/
inductive Refusal where
  | malformed
  | helpWanted
  deriving DecidableEq

/-- The exit code of a refusal. -/
def Refusal.exitCode : Refusal → Nat
  | malformed => 2
  | helpWanted => 0

/-- The options with their values and the words that were given, in their order. -/
structure Given where
  options : List (String × String) := []
  words : List String := []

namespace Given

/-- Whether an option was given. -/
def has (g : Given) (option : String) : Bool :=
  g.options.any fun o => o.1 == option

/-- The values of an option. -/
def values (g : Given) (option : String) : List String :=
  (g.options.filter fun o => o.1 == option).map Prod.snd

/-- Adds an option, unless it was given before and does not repeat, or needs a path and has none. -/
def addOption (g : Given) (spec : OptionSpec) (value : String) : Except Refusal Given :=
  if g.has spec.long && !spec.repeats || spec.kind = .path && value == "" then .error .malformed
  else .ok { g with options := g.options ++ [(spec.long, value)] }

/-- Adds a word. Every word is a path. -/
def addWord (g : Given) (word : String) : Except Refusal Given :=
  if word == "" then .error .malformed else .ok { g with words := g.words ++ [word] }

end Given

/-- Whether an argument looks like an option. A single dash is a word. -/
def looksLikeOption (argument : String) : Bool :=
  match argument.toList with
  | '-' :: _ :: _ => true
  | _ => false

/-- A text up to the first equals sign, and what stands behind the sign if there is one. -/
def splitAtEquals : List Char → List Char × Option (List Char)
  | [] => ([], none)
  | '=' :: rest => ([], some rest)
  | c :: rest =>
    let (name, value) := splitAtEquals rest
    (c :: name, value)

/-- The option of an argument that looks like one, with the value attached to it. -/
def optionOf (specs : List OptionSpec) (argument : String) : Except Refusal (OptionSpec × Option String) :=
  let found (spec : Option OptionSpec) (value : Option (List Char)) : Except Refusal (OptionSpec × Option String) :=
    match spec with
    | some spec => .ok (spec, value.map String.ofList)
    | none => .error .malformed
  match argument.toList with
  | '-' :: '-' :: text =>
    let (name, value) := splitAtEquals text
    if name = "help".toList then .error (if value.isNone then .helpWanted else .malformed)
    else found (specs.find? fun spec => spec.long.toList == name) value
  | '-' :: 'h' :: _ => .error .helpWanted
  | '-' :: c :: attached =>
    let value := match attached with
      | [] => none
      | '=' :: rest => some rest
      | rest => some rest
    found (specs.find? fun spec => spec.short == some c) value
  | _ => .error .malformed

/-- Reads arguments after those that were given so far, with an option that waits for its value. The arguments from the
first word beyond the limit on are left. -/
def readArguments (specs : List OptionSpec) (limit : Nat) (pending : Option OptionSpec) (g : Given) :
    List String → Except Refusal (Given × List String)
  | [] => if pending.isSome then .error .malformed else .ok (g, [])
  | argument :: rest =>
    match pending with
    | some spec =>
      if looksLikeOption argument then .error .malformed
      else do readArguments specs limit none (← g.addOption spec argument) rest
    | none =>
      if argument == "--" then
        if g.words.length + rest.length ≤ limit then do return (← rest.foldlM Given.addWord g, [])
        else .error .malformed
      else if looksLikeOption argument then
        match optionOf specs argument with
        | .error refusal => .error refusal
        | .ok (spec, attached) =>
          match attached with
          | some value =>
            if spec.kind = .flag then .error .malformed
            else do readArguments specs limit none (← g.addOption spec value) rest
          | none =>
            if spec.kind = .flag then do readArguments specs limit none (← g.addOption spec "") rest
            else readArguments specs limit (some spec) g rest
      else if g.words.length < limit then do readArguments specs limit none (← g.addWord argument) rest
      else .ok (g, argument :: rest)

end ImportClosure.CommandLine
