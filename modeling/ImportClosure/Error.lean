import ImportClosure.Glob.FileGlob
import ImportClosure.Glob.NameGlob
import ImportClosure.Module.Record
import ImportClosure.Tree

/-!
# Errors and diagnostics

An error ends a step, a diagnostic is noted and the step goes on. Both are causes; `Error.message` and
`Diagnostic.message` hold all the wording. A forbidden import is raised without a site, and the site is filled in once,
by the import that led to it.
-/

namespace ImportClosure

/-- Where a forbidden import was met. -/
inductive ImportSite where
  | unattributed
  | explicit (importer : ModuleName) (location : SourceRef)
  | implicit (importer : ModuleName)
  deriving DecidableEq

/-- A module that must not be imported, since that would bring in what is to be avoided. -/
structure ForbiddenImport where
  name : ModuleName
  avoiding : String
  site : ImportSite := .unattributed
  deriving DecidableEq

/-- The wording of a forbidden import. -/
def ForbiddenImport.message (f : ForbiddenImport) : String :=
  "Error, forbidden import of '" ++ f.name.text ++ "' (intending to avoid '" ++ f.avoiding ++ "')" ++
    match f.site with
    | .unattributed => " encountered."
    | .explicit importer location =>
      " in module '" ++ importer.text ++ "' at '" ++ location.text ++ "' encountered."
    | .implicit importer => " done implicitly by module '" ++ importer.text ++ "'."

/-- Why a pattern is refused. -/
inductive PatternFault where
  | nameGlob (glob : String) (fault : NameGlob.Fault)
  | fileGlob (fault : FileGlob.Fault)
  | directory
  | stated (text : String)

/-- The wording of a refused pattern. -/
def PatternFault.message : PatternFault → String
  | nameGlob glob fault => "error parsing glob '" ++ glob ++ "': " ++ fault.message
  | fileGlob fault => fault.message
  | directory => "is a directory, not a filename pattern"
  | stated text => text

/-- Why a source is refused. -/
inductive SourceFault where
  | atLine (line : Nat)
  | stated (text : String)

/-- The wording of a refused source. -/
def SourceFault.message : SourceFault → String
  | atLine line => "invalid syntax at line " ++ Text.decimal line
  | stated text => text

/-- Why a configuration is refused. -/
inductive ConfigFault where
  | followAllAndNone
  | stated (text : String)

/-- The wording of a refused configuration. -/
def ConfigFault.message : ConfigFault → String
  | followAllAndNone => "follow_all and follow_none are mutually exclusive"
  | stated text => text

/-- Why a module could not be built. -/
inductive BuildFault where
  | entry (file : ModuleFile)
  | stated (text : String)

/-- The wording of a failed build. -/
def BuildFault.message : BuildFault → String
  | entry file => "entry module '" ++ file.text ++ "' could not be built"
  | stated text => text

/-- What must never happen. -/
inductive Violation where
  | extensionPackage (name : ModuleName)
  | packageWithoutDirectory (name : ModuleName)
  | stated (text : String)

/-- The wording of a violation. -/
def Violation.message : Violation → String
  | extensionPackage name => "extension module '" ++ name.text ++ "' cannot be a package"
  | packageWithoutDirectory name => "package '" ++ name.text ++ "' has no directory"
  | stated text => text

/-- What ends a step. -/
inductive Error where
  | forbidden (what : ForbiddenImport)
  | violation (what : Violation)
  | badSource (path : Path) (fault : SourceFault)
  | badPattern (pattern : String) (fault : PatternFault)
  | badConfig (fault : ConfigFault)
  | buildFailed (fault : BuildFault)
  | io (cause : IoError)
  | json
  | toml
  /-- A walk does not come to an end: the builder gives a module whose directory leads back to where the walk was. -/
  | unfinished

namespace Error

/-- The wording of an error. The wording of a malformed document ends where the reader's own words would begin. -/
def message : Error → String
  | forbidden what => what.message
  | violation what => "Internal error, invariant violated: " ++ what.message
  | badSource path fault => "Syntax error in '" ++ path.text ++ "': " ++ fault.message
  | badPattern pattern fault => "Invalid pattern '" ++ pattern ++ "': " ++ fault.message
  | badConfig fault => "Invalid configuration: " ++ fault.message
  | buildFailed fault => "Parser error: " ++ fault.message
  | io cause => "IO error: " ++ cause.message
  | json => "JSON error:"
  | toml => "TOML error:"
  | unfinished => "Walk without an end"

/-- Whether an error is about the program that is followed and not about its input. -/
def isFatal : Error → Bool
  | forbidden _ | violation _ => true
  | _ => false

/-- Fills in the site of a forbidden import that has none yet. -/
def withSite (site : ImportSite) : Error → Error
  | forbidden what => if what.site = .unattributed then forbidden { what with site := site } else forbidden what
  | other => other

/-- Attributes a forbidden import to an import statement. -/
def atImport (importer : ModuleName) (location : SourceRef) : Error → Error :=
  withSite (.explicit importer location)

/-- Attributes a forbidden import to an import that a plugin declared. -/
def implicitIn (importer : ModuleName) : Error → Error :=
  withSite (.implicit importer)

end Error

/-- What is noted for the report while a step goes on. -/
inductive Diagnostic where
  | unresolvedAbsolute (at_ : SourceRef) (name : ModuleName)
  | unresolvedRelative (at_ : SourceRef) (name : ModuleName) (package : Option ModuleName)
  | nonEmbeddableExtension (name : ModuleName)
  | patternMatchEmpty (pattern : String)
  | inclusionDenied (name : ModuleName) (reason : String)
  | includeFailed (path : Path)

namespace Diagnostic

/-- The word for the kind of a diagnostic. -/
def kind : Diagnostic → String
  | unresolvedAbsolute .. | unresolvedRelative .. => "unresolved-import"
  | nonEmbeddableExtension _ => "non-embeddable-extension"
  | patternMatchEmpty _ => "pattern-match-empty"
  | inclusionDenied .. => "inclusion-denied"
  | includeFailed _ => "include-failed"

/-- The wording of a diagnostic. -/
def message : Diagnostic → String
  | unresolvedAbsolute at_ name => at_.text ++ ": Cannot find '" ++ name.text ++ "' as absolute import."
  | unresolvedRelative at_ name package =>
    at_.text ++ ": Cannot find '" ++ name.text ++ "' in package '" ++ (package.map ModuleName.text).getD "" ++
      "' as relative import."
  | nonEmbeddableExtension name =>
    "Cannot include extension module '" ++ name.text ++ "' unless using at least standalone mode, " ++
      "where they would be copied. In this mode, extension modules are not part of " ++
      "the compiled result, and therefore asking to include them makes no sense."
  | patternMatchEmpty pattern => "Didn't match any files against pattern '" ++ pattern ++ "'."
  | inclusionDenied name reason => "Not allowed to include module '" ++ name.text ++ "' due to '" ++ reason ++ "'."
  | includeFailed path => "Failed to include module from '" ++ path.text ++ "'."

end Diagnostic

end ImportClosure
