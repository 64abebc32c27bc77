import ImportClosure.Session
import ImportClosure.Tree.Matches

/-!
# Walking explicit paths

Files, package directories and filename patterns that are included on request. What is still to be walked is kept on a
stack, with the children of a package on top in the order of their names, so a package is followed by all that is below
it.
-/

namespace ImportClosure

/-- Something to be walked. -/
inductive WalkItem where
  /-- A file or package directory, as a module of a package. -/
  | single (path : Path) (package : Option ModuleName)
  /-- A file, a package directory, or a directory of modules. -/
  | path (path : Path) (package : Option ModuleName)
  /-- Every file that matches a filename pattern. -/
  | pattern (text : String)

namespace Engine

variable {σ : Type}

/-- Reports a path that could not be included; there is nothing below it. -/
def includeFailed (path : Path) : Step σ (List WalkItem) := do
  update fun s => s.diagnose (.includeFailed path)
  return []

/-- The directory whose modules belong to a package, which becomes a root unless it is a namespace package. -/
def openPackage (m : ModuleRecord) : Step σ Path := do
  if m.isNamespacePackage then return m.file.path
  update fun s => s.addRoot m
  match m.file.path.parent? with
  | some dir => return dir
  | none => throw (.violation (.packageWithoutDirectory m.name))

/-- Whether an entry of a package directory is walked: a package that no source shadows, or a source. -/
def isMember (t : FileTree) (dir : Path) (name : String) : Bool :=
  let sub := dir.child name
  name != initEntry && name != bytecodeCacheDir &&
    ((t.isPackage sub && !t.exists? ⟨sub.text ++ sourceSuffix⟩) || Text.endsWith name sourceSuffix)

/-- Whether an entry of a directory that is no package is walked. -/
def isTopLevel (t : FileTree) (dir : Path) (name : String) : Bool :=
  let sub := dir.child name
  t.isPackage sub || Text.endsWith name sourceSuffix || (extensionSuffix? sub).isSome

/-- The names in a directory. -/
def namesIn (e : Engine σ) (dir : Path) : Step σ (List String) :=
  match e.tree.list dir with
  | .ok names => pure names
  | .error cause => throw (.io cause)

/-- Makes an included module a root; below a package its members are left to be walked. -/
def registerIncluded (e : Engine σ) (m : ModuleRecord) : Step σ (List WalkItem) := do
  e.trace (.moduleIncluded m)
  update fun s => (s.keep m).2
  if m.isPackage then
    if m.kind = .extension then throw (.violation (.extensionPackage m.name))
    let dir ← openPackage m
    e.trace (.packageDirectory dir)
    let names ← e.namesIn dir
    return (names.filter (isMember e.tree dir)).map fun name => .single (dir.child name) (some m.name)
  else
    if m.kind ≠ .extension || e.policy.options.standalone then update fun s => s.addRoot m
    return []

/-- Gets the module that an explicit path leads to, and notes that one did. -/
def fetch (e : Engine σ) (r : RecursionRequest) : Step σ (Option ModuleRecord) := do
  let found ← e.recurse r false
  if let some m := found then update fun s => s.reach (.obtained m)
  return found

/-- Reports an extension module that the artifact cannot carry. -/
def reportExtension (e : Engine σ) (name : ModuleName) (kind : ModuleKind) : Step σ Unit :=
  if kind = .extension && !e.policy.options.standalone then
    update fun s => s.diagnose (.nonEmbeddableExtension name)
  else pure ()

/-- Includes one file or package directory if the policy allows it. -/
def walkSingle (e : Engine σ) (path : Path) (package : Option ModuleName) : Step σ (List WalkItem) := do
  let file := ModuleFile.ofPath e.tree.workDir path
  e.trace (.checkingModule file package)
  match e.tree.moduleAt? file.path with
  | none => return []
  | some (bare, kind) =>
    let name := ModuleName.inPackage bare package
    e.reportExtension name kind
    match ← e.decide ⟨file, name, kind, true⟩ with
    | .included reason =>
      match ← e.fetch ⟨name, file, kind, none, none, reason.text⟩ with
      | some m => e.registerIncluded m
      | none => includeFailed file.path
    | .excluded reason | .undecided reason =>
      update fun s => s.diagnose (.inclusionDenied name reason.text)
      return []

/-- What a path stands for: itself, or the modules of a directory that is no package. -/
def walkPath (e : Engine σ) (path : Path) (package : Option ModuleName) : Step σ (List WalkItem) := do
  e.trace (.checkingPath path package)
  if e.tree.isFile path || e.tree.isRealPackage path then return [.single path package]
  else if !e.tree.isDir path then includeFailed path
  else
    let names ← e.namesIn path
    return (names.filter (isTopLevel e.tree path)).map fun name => .single (path.child name) none

/-- The files that a filename pattern stands for, bytecode apart. -/
def walkPattern (e : Engine σ) (text : String) : Step σ (List WalkItem) := do
  e.trace (.checkingPattern text)
  if e.tree.isDir ⟨text⟩ then throw (.badPattern text .directory)
  match FilePattern.read text with
  | .error fault => throw (.badPattern text (.fileGlob fault))
  | .ok pattern =>
    let files := (e.tree.matching pattern).filter fun p => !Text.endsWith p.text bytecodeSuffix && e.tree.isFile p
    if files.isEmpty then update fun s => s.diagnose (.patternMatchEmpty text)
    return files.map fun p => .single p none

/-- Walks one item and gives what is left to be walked below it. -/
def expand (e : Engine σ) : WalkItem → Step σ (List WalkItem)
  | .single path package => e.walkSingle path package
  | .path path package => e.walkPath path package
  | .pattern text => e.walkPattern text

/-- Walks the items on a stack. A walk that has not come to its end after this many items fails as unfinished, and a walk
that succeeds has left nothing out. -/
def walkStack (e : Engine σ) : Nat → List WalkItem → Step σ Unit
  | _, [] => pure ()
  | 0, _ :: _ => throw .unfinished
  | bound + 1, item :: rest => do e.walkStack bound ((← e.expand item) ++ rest)

/-- Walks an item with all that is below it. Over a builder that gives the modules it is asked for, each of the things that
the item stands for leads to every place of the tree at most once, so the bound is never reached. -/
def walk (e : Engine σ) (item : WalkItem) : Step σ Unit := do
  let items ← e.expand item
  e.walkStack (items.length * (e.tree.size + 2) + 1) items

end Engine

end ImportClosure
