import ImportClosure.Json
import ImportClosure.Module.Record

/-!
# Decisions

The policy answers in three ways. Undecided is not excluded: nothing brings the module in here, but another importer or
an explicit path still may. Every decision carries its reason, and `Reason.text` holds the wording.
-/

namespace ImportClosure

/-- How a name came to match a pattern. -/
inductive HitKind where
  | exact
  | content
  | glob
  | globContent
  deriving DecidableEq

/-- The pattern that a name matches, and how. -/
structure PatternHit where
  pattern : String
  kind : HitKind
  deriving DecidableEq

/-- A hit in words. -/
def PatternHit.text (h : PatternHit) : String :=
  match h.kind with
  | .exact => "is exact match of '" ++ h.pattern ++ "'"
  | .content => "is package content of '" ++ h.pattern ++ "'"
  | .glob => "matches pattern '" ++ h.pattern ++ "'"
  | .globContent => "is package content of match to pattern '" ++ h.pattern ++ "'"

/-- Why a module is included, excluded or left undecided. -/
inductive Reason where
  | mainNotTwice
  | mainInPackage
  | extensionStandalone
  | extensionNotInspectable
  | profile
  | neverFollow (name : ModuleName) (hit : PatternHit)
  | alwaysFollow (name : ModuleName) (hit : PatternHit)
  | explicitPath
  | followStdlib
  | followAllNoAuto
  | followAll
  | followNone
  | byDefault
  | configured (name : ModuleName) (hit : PatternHit)
  | stated (text : String)
  deriving DecidableEq

/-- The wording of a reason. -/
def Reason.text : Reason → String
  | mainNotTwice => "Main program is not followed to a second time."
  | mainInPackage => "Main program is already included in package mode."
  | extensionStandalone => "Extension module needed for standalone mode."
  | extensionNotInspectable => "Extension module cannot be inspected."
  | profile => "PGO based decision"
  | neverFollow name hit => "Module '" ++ name.text ++ "' " ++ hit.text ++ ", instructed by user to not follow to."
  | alwaysFollow name hit => "Module '" ++ name.text ++ "' " ++ hit.text ++ ", instructed by user to follow to."
  | explicitPath => "Lives in plug-in directory."
  | followStdlib => "Instructed by user to follow to standard library."
  | followAllNoAuto =>
    "Instructed by user to follow all modules, including non-automatic standard library modules."
  | followAll => "Instructed by user to follow to all non-standard library modules."
  | followNone => "Instructed by user to not follow at all, not following without request."
  | byDefault => "Default behavior in non-standalone mode, not following without request."
  | configured name hit => "Module '" ++ name.text ++ "' " ++ hit.text ++ ", decided by configuration."
  | stated text => text

/-- What the policy says about a module. -/
inductive Decision where
  | included (reason : Reason)
  | excluded (reason : Reason)
  | undecided (reason : Reason)
  deriving DecidableEq

namespace Decision

/-- Include or exclude. -/
def ofBool (b : Bool) (reason : Reason) : Decision :=
  if b then included reason else excluded reason

/-- The reason of a decision. -/
def reason : Decision → Reason
  | included r | excluded r | undecided r => r

/-- Whether a module is included. -/
def isIncluded : Decision → Bool
  | included _ => true
  | _ => false

/-- Whether a module is excluded. -/
def isExcluded : Decision → Bool
  | excluded _ => true
  | _ => false

/-- Whether a module is left undecided. -/
def isUndecided : Decision → Bool
  | undecided _ => true
  | _ => false

/-- The word for a decision. -/
def verdict : Decision → String
  | included _ => "include"
  | excluded _ => "exclude"
  | undecided _ => "undecided"

/-- The decision as it is printed. -/
def text (d : Decision) : String :=
  d.verdict ++ ": " ++ d.reason.text

/-- The document of a decision. -/
def toJson (d : Decision) : Json :=
  .record [("decision", .ofText d.verdict), ("reason", .ofText d.reason.text)]

end Decision

end ImportClosure
