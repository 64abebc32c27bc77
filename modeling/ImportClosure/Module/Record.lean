import ImportClosure.Module.File
import ImportClosure.Module.Name

/-!
# Module records and imports

A record is a module that has been built, a statement is an import as a source has it, and an edge is what a statement
turns out to import. Records and edges keep the file as it was given; what identifies a module is its name together with
the place of its file.
-/

namespace ImportClosure

/-- A line of a file, for messages. -/
structure SourceRef where
  file : Path
  line : Nat
  deriving DecidableEq

/-- The reference as messages show it. -/
def SourceRef.text (r : SourceRef) : String :=
  r.file.text ++ ":" ++ Text.decimal r.line

/-- How a module ends up in the artifact. -/
inductive CompilationMode where
  | compiled
  | bytecode
  deriving DecidableEq

/-- The word for a compilation mode. -/
def CompilationMode.text : CompilationMode → String
  | compiled => "compiled"
  | bytecode => "bytecode"

/-- What tells modules apart: the name and the place of the file. -/
structure Identity where
  name : ModuleName
  place : List Path.Component
  deriving DecidableEq

/-- The order of identities: by name, then by place. -/
def Identity.lt (a b : Identity) : Bool :=
  a.name.lt b.name || (a.name == b.name && Path.componentsLt a.place b.place)

/-- A name with a file as it was given. -/
structure ModuleKey where
  name : ModuleName
  file : ModuleFile
  deriving DecidableEq

namespace ModuleKey

/-- The identity that a key stands for. -/
def identity (k : ModuleKey) : Identity :=
  ⟨k.name, k.file.place⟩

/-- Whether a key stands for an identity. -/
def isOf (k : ModuleKey) (identity : Identity) : Bool :=
  k.name == identity.name && k.file.place == identity.place

/-- The key as messages show it. -/
def text (k : ModuleKey) : String :=
  k.name.text ++ " (" ++ k.file.text ++ ")"

end ModuleKey

/-- A built module. -/
structure ModuleRecord where
  name : ModuleName
  file : ModuleFile
  kind : ModuleKind
  isPackage : Bool := false
  /-- Set for the entry of the program only. -/
  isTop : Bool := false
  /-- The package that the entry runs in, in package mode. -/
  runtimePackage : Option ModuleName := none
  deriving DecidableEq

namespace ModuleRecord

/-- The name and the file of a record. -/
def key (r : ModuleRecord) : ModuleKey :=
  ⟨r.name, r.file⟩

/-- What tells a record from others. -/
def identity (r : ModuleRecord) : Identity :=
  r.key.identity

/-- The first line of the module. -/
def sourceRef (r : ModuleRecord) : SourceRef :=
  ⟨r.file.path, 1⟩

/-- A package that is backed by its directory alone. -/
def isNamespacePackage (r : ModuleRecord) : Bool :=
  r.isPackage && !r.file.isInitEntry

/-- The record as messages show it. -/
def text (r : ModuleRecord) : String :=
  "<" ++ r.kind.text ++ (if r.isPackage then " package " else " module ") ++ r.name.text ++ " '" ++ r.file.text ++ "'>"

end ModuleRecord

/-- Whatever stands for a record and can be handed around in its place. -/
class Handle (α : Type) where
  record : α → ModuleRecord

instance : Handle ModuleRecord :=
  ⟨id⟩

/-- The name and the file that a handle stands for. -/
def Handle.key {α : Type} [Handle α] (h : α) : ModuleKey :=
  (record h).key

/-- What tells the module of a handle from others. -/
def Handle.identity {α : Type} [Handle α] (h : α) : Identity :=
  (record h).identity

/-- Whether a handle stands for the module of an identity. -/
def Handle.isOf {α : Type} [Handle α] (h : α) (identity : Identity) : Bool :=
  (key h).isOf identity

/-- What the search for an imported module came to. -/
inductive Finding where
  | found
  /-- Compiled into the interpreter: there is no file to follow. -/
  | builtIn
  | notFound
  deriving DecidableEq

/-- The word for a finding. -/
def Finding.text : Finding → String
  | found => "found"
  | builtIn => "built-in"
  | notFound => "not-found"

/-- One imported module of an import statement, before anything is looked up. -/
structure ImportStatement where
  /-- The dotted path, empty for `from . import …`. -/
  path : String
  /-- The number of leading dots, 0 for an absolute import. -/
  level : Nat
  /-- The names that are imported from the module. -/
  names : List String
  line : Nat
  deriving DecidableEq

/-- An import found in a module. -/
structure ImportEdge where
  name : ModuleName
  file : Option ModuleFile
  kind : ModuleKind
  /-- The number of leading dots of a relative import, 0 for an absolute one. -/
  level : Nat
  finding : Finding
  sourceRef : SourceRef
  deriving DecidableEq

namespace ImportEdge

/-- An edge to a module that has a file. -/
def found (name : ModuleName) (file : ModuleFile) (kind : ModuleKind) (level : Nat) (at_ : SourceRef) : ImportEdge :=
  ⟨name, some file, kind, level, .found, at_⟩

/-- An edge to a module that no search directory holds. -/
def notFound (name : ModuleName) (level : Nat) (at_ : SourceRef) : ImportEdge :=
  ⟨name, none, .source, level, .notFound, at_⟩

/-- An edge to a module of the interpreter. -/
def builtIn (name : ModuleName) (at_ : SourceRef) : ImportEdge :=
  ⟨name, none, .source, 0, .builtIn, at_⟩

end ImportEdge

end ImportClosure
