import ImportClosure.Module.File
import ImportClosure.Text.Letters
import ImportClosure.Tree

/-!
# Modules in a file tree

Which directories are packages, and the name and kind of the module that a file holds. A real package has an init entry;
a directory without one is a namespace package if its name is an identifier.
-/

namespace ImportClosure.FileTree

/-- Whether a directory has an init entry that is a file. -/
def hasInitEntry (t : FileTree) (p : Path) : Bool :=
  t.isFile (p.child initEntry)

/-- A directory with an init entry. -/
def isRealPackage (t : FileTree) (p : Path) : Bool :=
  t.isDir p && t.hasInitEntry p

/-- A real package, or a directory without init entry whose name may stand in an import. -/
def isPackage (t : FileTree) (p : Path) : Bool :=
  t.isDir p && (t.hasInitEntry p || p.fileName.any fun name => name != bytecodeCacheDir && Text.isIdentifier name)

/-- A file name up to its first dot. -/
def stem (fileName : String) : String :=
  (Text.fields '.' fileName).head?.getD ""

/-- The kind of module that a file with this name holds. -/
def kindOfName? (fileName : String) : Option ModuleKind :=
  if Text.endsWith fileName sourceSuffix then some .source
  else if Text.endsWith fileName bytecodeSuffix then some .bytecode
  else if extensionSuffixes.any (Text.endsWith fileName) then some .extension
  else none

/-- The bare name and the kind of the module at a path. A package goes by the name of its directory, a file by its name
up to the first dot; the file itself need not exist. -/
def moduleAt? (t : FileTree) (p : Path) : Option (String × ModuleKind) :=
  p.fileName.bind fun name =>
    if t.isPackage p then some (name, .source)
    else if t.isDir p || stem name == "" then none
    else (kindOfName? name).map fun kind => (stem name, kind)

end ImportClosure.FileTree
