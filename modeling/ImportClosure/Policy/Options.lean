import ImportClosure.Policy.NamePatterns

/-!
# Options

What the user asked for, fixed for a run.
-/

namespace ImportClosure

/-- The options of a run. -/
structure FollowOptions where
  /-- The artifact is self-contained, so that it can carry extension modules. -/
  standalone : Bool := false
  /-- A module is built and not a program. -/
  moduleBuild : Bool := false
  /-- The package whose main module is the entry. -/
  packageMode : Option String := none
  followStdlib : Bool := false
  followAll : Bool := false
  followNone : Bool := false
  /-- Patterns of names that are always followed. -/
  followTo : List String := []
  /-- Patterns of names that are never followed. -/
  nofollowTo : List String := []
  /-- Patterns of names that are included as bytecode. -/
  bytecodeModules : List String := []
  /-- Every step of inclusion is logged. -/
  showInclusion : Bool := false

namespace FollowOptions

/-- Whether the entry is the main module of a package. -/
def inPackageMode (o : FollowOptions) : Bool :=
  o.packageMode.isSome

/-- The package that the entry runs in. -/
def runtimePackage (o : FollowOptions) : Option ModuleName :=
  o.packageMode.map ModuleName.mk

/-- Refuses options that contradict each other and patterns that cannot be read. -/
def validate (o : FollowOptions) : Except Error Unit := do
  if o.followAll && o.followNone then .error (.badConfig .followAllAndNone)
  let _ ← NamePatterns.ofTexts o.followTo
  let _ ← NamePatterns.ofTexts o.nofollowTo
  let _ ← NamePatterns.ofTexts o.bytecodeModules

end FollowOptions

end ImportClosure
