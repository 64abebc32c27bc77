import ImportClosure.Module.Record
import ImportClosure.Tree.Locate

/-!
# The search path

Where absolute imports are looked up, and how an import statement turns into import edges. The enclosing packages of a
module that is found are edges too, since they are imported along with it; a name that is imported from a package is an
edge only if it is a module.
-/

namespace ImportClosure

/-- The directories that are searched, in order, and the modules of the interpreter. The default has none. -/
structure SearchPath where
  dirs : List Path := []
  builtins : List String := []

namespace SearchPath

/-- The search path of these directories, relative to `workDir`. -/
def ofDirs (workDir : Path) (dirs : List Path) (builtins : List String) : SearchPath :=
  ⟨dirs.map fun dir => dir.absolute workDir, builtins⟩

/-- Moves a directory to the front. -/
def prepend (s : SearchPath) (workDir dir : Path) : SearchPath :=
  let dir := dir.absolute workDir
  { s with dirs := dir :: s.dirs.filter fun other => other.components != dir.components }

/-- Whether a module is part of the interpreter. -/
def isBuiltin (s : SearchPath) (name : ModuleName) : Bool :=
  s.builtins.contains name.topLevel

/-- The first directory that has a module of this name decides. -/
def locate (s : SearchPath) (t : FileTree) (name : ModuleName) : Option FileTree.Located :=
  s.dirs.findSome? fun dir => t.locateIn dir name.text

/-- Goes out of packages and their directories together, a number of times. -/
def climb : Nat → ModuleName × Path → Option (ModuleName × Path)
  | 0, base => some base
  | n + 1, (package, dir) => do climb n (← package.package?, ← dir.parent?)

/-- The package that relative imports of a module start from, with its directory. -/
def homePackage? (importer : ModuleRecord) : Option (ModuleName × Path) :=
  if importer.isPackage then some (importer.name, importer.file.identity)
  else do
    let package ← importer.runtimePackage.or importer.name.package?
    return (package, ← importer.file.path.parent?)

/-- The absolute name that a relative import means, and the directory in which its path is looked up. -/
def relativeBase? (importer : ModuleRecord) (i : ImportStatement) : Option (ModuleName × Path) := do
  let (package, dir) ← climb (i.level - 1) (← homePackage? importer)
  return (if i.path == "" then package else package.child i.path, dir)

/-- The directory of a package, for a file that stands for one. -/
def packageDir? (t : FileTree) (file : ModuleFile) : Option Path :=
  if file.isInitEntry then file.path.parent?
  else if t.isDir file.path then some file.path
  else none

/-- Edges to the packages around a name that is found. -/
def parentEdges (s : SearchPath) (t : FileTree) (name : ModuleName) (at_ : SourceRef) : List ImportEdge :=
  name.parentPackages.filterMap fun parent =>
    (s.locate t parent).map fun (file, kind) => .found parent file kind 0 at_

/-- Edges to the modules among the names that are imported from a package. -/
def memberEdges (t : FileTree) (name : ModuleName) (file : ModuleFile) (i : ImportStatement) (at_ : SourceRef) :
    List ImportEdge :=
  match packageDir? t file with
  | none => []
  | some dir =>
    i.names.filterMap fun member =>
      (t.locateIn dir member).map fun (file, kind) => .found (name.child member) file kind i.level at_

/-- The edges of an absolute import. -/
def resolveAbsolute (s : SearchPath) (t : FileTree) (i : ImportStatement) (at_ : SourceRef) : List ImportEdge :=
  let name : ModuleName := ⟨i.path⟩
  if s.isBuiltin name then [.builtIn name at_]
  else
    match s.locate t name with
    | none => [.notFound name i.level at_]
    | some (file, kind) =>
      s.parentEdges t name at_ ++ .found name file kind i.level at_ :: memberEdges t name file i at_

/-- The edges of a relative import. -/
def resolveRelative (t : FileTree) (importer : ModuleRecord) (i : ImportStatement) (at_ : SourceRef) :
    List ImportEdge :=
  match relativeBase? importer i with
  | none => [.notFound ⟨String.ofList (List.replicate i.level '.') ++ i.path⟩ i.level at_]
  | some (name, dir) =>
    match if i.path == "" then t.moduleAtDirectory? dir else t.locateIn dir i.path with
    | none => [.notFound name i.level at_]
    | some (file, kind) => .found name file kind i.level at_ :: memberEdges t name file i at_

/-- The edges of an import statement of a module. -/
def resolve (s : SearchPath) (t : FileTree) (importer : ModuleRecord) (i : ImportStatement) : List ImportEdge :=
  let at_ : SourceRef := ⟨importer.file.path, i.line⟩
  if i.level == 0 then s.resolveAbsolute t i at_ else resolveRelative t importer i at_

end SearchPath

end ImportClosure
