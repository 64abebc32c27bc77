import ImportClosure.Error

/-!
# Builders

A builder turns a file into a record with its import edges. It may remember what it has built; what it remembers is the
state `σ`.
-/

namespace ImportClosure

/-- A module that is to be built. -/
structure BuildRequest where
  name : ModuleName
  file : ModuleFile
  kind : ModuleKind
  /-- The module is the entry of the program. -/
  isTop : Bool
  /-- A source that cannot be read or is malformed is noted, and is no error. -/
  hideSyntaxError : Bool

/-- A module that has been built. -/
structure BuildOutcome where
  record : ModuleRecord
  uses : List ImportEdge
  /-- False if the builder had built the module before. -/
  newlyBuilt : Bool

/-- Why a source was passed over. -/
inductive BuildNote where
  | unreadable (path : Path) (cause : IoError)
  | malformed (path : Path) (line : Nat)

/-- The wording of a note. -/
def BuildNote.message : BuildNote → String
  | unreadable path cause => "Cannot read '" ++ path.text ++ "': " ++ cause.message
  | malformed path line => (Error.badSource path (.atLine line)).message

/-- What a builder answers: a module, or nothing if it was passed over. -/
structure BuildAnswer where
  result : Except Error (Option BuildOutcome)
  notes : List BuildNote := []

/-- A builder that remembers a state. -/
structure Builder (σ : Type) where
  build : BuildRequest → σ → BuildAnswer × σ

end ImportClosure
