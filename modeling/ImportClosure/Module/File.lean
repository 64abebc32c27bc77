import ImportClosure.Path

/-!
# Module files

A module file is the absolute path of a module. Files are compared by their place: the components of the path, with the
init entry of a package folded into its directory, so that `pkg/` and `pkg/__init__.py` are the same module.
-/

namespace ImportClosure

/-- The file that makes a directory a package. -/
def initEntry : String := "__init__.py"

/-- The directory of cached bytecode, which is no package. -/
def bytecodeCacheDir : String := "__pycache__"

/-- How the names of source modules end. -/
def sourceSuffix : String := ".py"

/-- How the names of bytecode modules end. -/
def bytecodeSuffix : String := ".pyc"

/-- How the names of native extension modules end. -/
def extensionSuffixes : List String := [".so", ".pyd", ".dylib"]

/-- The extension suffix that a path's last name ends with. -/
def extensionSuffix? (p : Path) : Option String :=
  p.fileName.bind fun name => extensionSuffixes.find? (Text.endsWith name)

/-- What a module is on disk. -/
inductive ModuleKind where
  | source
  | bytecode
  | extension
  deriving DecidableEq, Inhabited

/-- The word for a kind. -/
def ModuleKind.text : ModuleKind → String
  | source => "source"
  | bytecode => "bytecode"
  | extension => "extension"

/-- The location of a module, from the root. -/
structure ModuleFile where
  path : Path
  deriving DecidableEq, Inhabited

namespace ModuleFile

/-- The module file at a path that is relative to `workDir`. -/
def ofPath (workDir p : Path) : ModuleFile :=
  ⟨p.absolute workDir⟩

/-- Whether this is the init entry of a package. -/
def isInitEntry (f : ModuleFile) : Bool :=
  f.path.fileName == some initEntry

/-- The path with an init entry folded into its directory. -/
def identity (f : ModuleFile) : Path :=
  if f.isInitEntry then f.path.parent?.getD f.path else f.path

/-- What files are compared by. -/
def place (f : ModuleFile) : List Path.Component :=
  f.identity.components

/-- Whether two files are the same module. -/
def same (f g : ModuleFile) : Bool :=
  f.place == g.place

/-- The order of files, that of their places. -/
def lt (f g : ModuleFile) : Bool :=
  Path.componentsLt f.place g.place

/-- The file as messages show it. -/
def text (f : ModuleFile) : String :=
  f.path.text

end ModuleFile

end ImportClosure
