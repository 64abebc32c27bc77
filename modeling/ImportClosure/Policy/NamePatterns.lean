import ImportClosure.Error
import ImportClosure.Policy.Decision

/-!
# Lists of module name patterns

A pattern takes a name in four ways: the name is the pattern, lies below it as a package, is taken by the glob, or is
taken by the glob with a dot and anything behind it. The first pattern of a list that takes a name decides, and the hit
tells which way it was.
-/

namespace ImportClosure

/-- A pattern over module names, with its two globs read. -/
structure NamePattern where
  text : String
  glob : Shape
  contentGlob : Shape

namespace NamePattern

/-- Reads a glob, naming it in the error. -/
def readGlob (glob : String) : Except Error Shape :=
  match NameGlob.read glob with
  | .ok shape => .ok shape
  | .error fault => .error (.badPattern glob (.nameGlob glob fault))

/-- Reads a pattern. -/
def ofText (text : String) : Except Error NamePattern := do
  let glob ← readGlob text
  let contentGlob ← readGlob (text ++ ".*")
  .ok ⟨text, glob, contentGlob⟩

/-- The first way in which a pattern takes a name. -/
def hitKind? (p : NamePattern) (n : ModuleName) : Option HitKind :=
  if n.text == p.text then some .exact
  else if n.isBelow p.text then some .content
  else if p.glob.fits n.text then some .glob
  else if p.contentGlob.fits n.text then some .globContent
  else none

/-- The hit of a pattern on a name. -/
def hit? (p : NamePattern) (n : ModuleName) : Option PatternHit :=
  (p.hitKind? n).map fun kind => ⟨p.text, kind⟩

end NamePattern

/-- Patterns in the order in which they are tried. -/
abbrev NamePatterns := List NamePattern

namespace NamePatterns

/-- Reads patterns, up to the first that is refused. -/
def ofTexts (texts : List String) : Except Error NamePatterns :=
  texts.mapM NamePattern.ofText

/-- The hit of the first pattern that takes a name. -/
def firstHit (ps : NamePatterns) (n : ModuleName) : Option PatternHit :=
  ps.findSome? fun p => p.hit? n

/-- Whether some pattern takes a name. -/
def takes (ps : NamePatterns) (n : ModuleName) : Bool :=
  (firstHit ps n).isSome

end NamePatterns

end ImportClosure
