import ImportClosure.Tree.Modules

/-!
# Dotted names below a directory

A dotted name is followed one directory at a time: each component but the last is a package, and the last one is looked
up among a real package, a source, an extension, cached bytecode and a namespace package, in this order.
-/

namespace ImportClosure.FileTree

/-- A file with what kind of module it holds. -/
abbrev Located := ModuleFile × ModuleKind

/-- The module of a package directory: its init entry, or the directory itself. -/
def moduleAtDirectory? (t : FileTree) (dir : Path) : Option Located :=
  if !t.isPackage dir then none
  else if t.hasInitEntry dir then some (.ofPath t.workDir (dir.child initEntry), .source)
  else some (.ofPath t.workDir dir, .source)

/-- The file with a name and a suffix, if there is one. -/
def fileWithSuffix? (t : FileTree) (dir : Path) (name suffix : String) (kind : ModuleKind) : Option Located :=
  let p := dir.child (name ++ suffix)
  if t.isFile p then some (.ofPath t.workDir p, kind) else none

/-- Whether a path leads to a file that holds the extension module of this name. -/
def isExtensionOf (t : FileTree) (name : String) (p : Path) : Bool :=
  t.isFile p && t.moduleAt? p == some (name, .extension)

/-- The extension module of this name in a directory, the first in the order of file names. -/
def extensionIn? (t : FileTree) (dir : Path) (name : String) : Option Located :=
  match t.list dir with
  | .error _ => none
  | .ok names =>
    (names.filter fun file => Text.startsWith file name).findSome? fun file =>
      if t.isExtensionOf name (dir.child file) then some (.ofPath t.workDir (dir.child file), .extension) else none

/-- The module of a single name in a directory. -/
def locateLeaf (t : FileTree) (dir : Path) (name : String) : Option Located :=
  if t.isRealPackage (dir.child name) then t.moduleAtDirectory? (dir.child name)
  else
    (t.fileWithSuffix? dir name sourceSuffix .source).or <|
      (t.extensionIn? dir name).or <|
        (t.fileWithSuffix? dir name bytecodeSuffix .bytecode).or (t.moduleAtDirectory? (dir.child name))

/-- The module of a list of components below a directory. -/
def locateComponents (t : FileTree) (dir : Path) : List String → Option Located
  | [] => none
  | [name] => if name == "" then none else t.locateLeaf dir name
  | name :: more =>
    if name == "" || !t.isPackage (dir.child name) then none else t.locateComponents (dir.child name) more

/-- The module of a dotted name below a directory. -/
def locateIn (t : FileTree) (dir : Path) (dotted : String) : Option Located :=
  t.locateComponents dir (Text.fields '.' dotted)

end ImportClosure.FileTree
