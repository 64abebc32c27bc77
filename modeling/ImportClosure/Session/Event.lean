import ImportClosure.Builder
import ImportClosure.Policy

/-!
# Events

What a session notes while it works: the lines of its log, the questions it puts to the plugins, and what became of the
modules it met.
-/

namespace ImportClosure

/-- Something that happened in a session. -/
inductive Event where
  | entryAdded (record : ModuleRecord)
  | checkingPath (path : Path) (package : Option ModuleName)
  | checkingModule (file : ModuleFile) (package : Option ModuleName)
  | checkingPattern (pattern : String)
  | moduleIncluded (record : ModuleRecord)
  | packageDirectory (dir : Path)
  | closureComplete
  | diagnosed (what : Diagnostic)
  | passedOver (what : BuildNote)
  /-- The plugins were asked for a decision. -/
  | encounter (query : Query)
  /-- The plugins were told that a module is about to be built. -/
  | recursion (request : RecursionRequest)

/-- What became of a module. -/
inductive Milestone where
  /-- The builder gave its record, for the first time or again. -/
  | built (record : ModuleRecord) (newly : Bool)
  /-- It was put into the queue. -/
  | queued (record : ModuleRecord)
  /-- An explicit path or pattern led to it. -/
  | obtained (record : ModuleRecord)
  deriving DecidableEq

namespace Event

/-- A package as messages show it. -/
def packageText (package : Option ModuleName) : String :=
  (package.map ModuleName.text).getD ""

/-- The line that an event leaves in the log. -/
def line? : Event → Option String
  | entryAdded r => some ("INFO Entry module '" ++ r.name.text ++ "' from '" ++ r.file.text ++ "'.")
  | checkingPath path package =>
    some ("INFO Checking top level inclusion path '" ++ path.text ++ "' '" ++ packageText package ++ "'.")
  | checkingModule file package =>
    some ("INFO Checking detail plug-in path '" ++ file.text ++ "' '" ++ packageText package ++ "':")
  | checkingPattern pattern => some ("INFO Checking plug-in pattern '" ++ pattern ++ "':")
  | moduleIncluded r => some ("INFO Included '" ++ r.name.text ++ "' as '" ++ r.text ++ "'.")
  | packageDirectory dir => some ("INFO Package directory '" ++ dir.text ++ "'.")
  | closureComplete => some "INFO closure complete"
  | diagnosed what => some ("WARN " ++ what.message)
  | passedOver what => some ("WARN " ++ what.message)
  | encounter _ | recursion _ => none

end Event

end ImportClosure
