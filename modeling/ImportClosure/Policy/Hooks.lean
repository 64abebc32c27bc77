import ImportClosure.Error
import ImportClosure.Policy.Decision

/-!
# Whom the policy asks

Three layers answer questions, each time in the same way. A plugin layer may decide about a module, forbid building it,
declare imports that a module needs without naming them, and say how a module is compiled. A library says which files are
library code, and a profile what an earlier run found out. Each is a structure of its answers, and any answers will do;
tables and lists that give them are beside it.
-/

namespace ImportClosure

/-- A module that another needs by convention. -/
structure ImplicitImport where
  name : ModuleName
  file : Option ModuleFile
  kind : ModuleKind
  reason : String

/-- A module that is about to be built, and for whom. -/
structure RecursionRequest where
  name : ModuleName
  file : ModuleFile
  kind : ModuleKind
  importer : Option ModuleName
  sourceRef : Option SourceRef
  reason : String

/-- A plugin layer. The default has nothing to say. -/
structure Plugins where
  /-- A decision that overrules the options. -/
  encounter : ModuleFile → ModuleName → ModuleKind → Option Decision := fun _ _ _ => none
  /-- Asked before a module is built. -/
  recursion : RecursionRequest → Except ForbiddenImport Unit := fun _ => .ok ()
  /-- The modules that a module needs by convention. -/
  implicitImports : ModuleRecord → Except ForbiddenImport (List ImplicitImport) := fun _ => .ok []
  /-- How a module is compiled. -/
  compilation : ModuleName → Option CompilationMode := fun _ => none

/-- A plugin layer that looks every answer up under the name of the module. -/
structure PluginTable where
  decisions : List (ModuleName × Decision) := []
  forbidden : List (ModuleName × String) := []
  implicitForbidden : List (ModuleName × ModuleName × String) := []
  implicitImports : List (ModuleName × List ImplicitImport) := []
  bytecode : List ModuleName := []
  compiled : List ModuleName := []

/-- The plugin layer of a table. -/
def PluginTable.plugins (t : PluginTable) : Plugins where
  encounter _ name _ := t.decisions.lookup name
  recursion r :=
    match t.forbidden.lookup r.name with
    | some avoiding => .error ⟨r.name, avoiding, .unattributed⟩
    | none => .ok ()
  implicitImports m :=
    match t.implicitForbidden.lookup m.name with
    | some (name, avoiding) => .error ⟨name, avoiding, .unattributed⟩
    | none => .ok ((t.implicitImports.lookup m.name).getD [])
  compilation name :=
    if t.bytecode.contains name then some .bytecode
    else if t.compiled.contains name then some .compiled
    else none

/-- A library says what belongs to it. The default has nothing. -/
structure Library where
  /-- Whether a file is library code. -/
  holds : ModuleFile → Bool := fun _ => false
  /-- Whether a module is included on explicit request only. -/
  isNoAuto : ModuleName → Bool := fun _ => false

/-- Where a library is, and which of its packages are not followed on their own. -/
structure LibraryRoots where
  roots : List Path := []
  noAuto : List String := []

namespace LibraryRoots

/-- The library at these directories, relative to `workDir`. -/
def ofPaths (workDir : Path) (roots : List Path) (noAuto : List String) : LibraryRoots :=
  ⟨roots.map fun root => root.absolute workDir, noAuto⟩

/-- A file is library code if it lies below one of the directories. The path of the file counts here and not its place: a
file and its package's directory may differ in this. -/
def library (l : LibraryRoots) : Library where
  holds file := l.roots.any fun root => file.path.startsWith root
  isNoAuto name := l.noAuto.contains name.topLevel

end LibraryRoots

/-- A profile says which modules an earlier run has shown to be needed or not. The default has nothing to say. -/
structure Profile where
  decide? : ModuleName → ModuleKind → Option Bool := fun _ _ => none

end ImportClosure
