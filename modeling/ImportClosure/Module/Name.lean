import ImportClosure.Text.Fields

/-!
# Module names

A module name is a dotted name such as `package.sub.leaf`. Any text may stand as one: components may be empty, and
names are ordered as texts.
-/

namespace ImportClosure

/-- A dotted module name. -/
structure ModuleName where
  text : String
  deriving DecidableEq, Inhabited

namespace ModuleName

/-- The name that the entry of a program runs under. -/
def main : ModuleName := ⟨"__main__"⟩

/-- What stands between the dots. -/
def components (n : ModuleName) : List String :=
  Text.fields '.' n.text

/-- The last component. -/
def basename (n : ModuleName) : String :=
  n.components.getLast?.getD ""

/-- The first component. -/
def topLevel (n : ModuleName) : String :=
  n.components.head?.getD ""

/-- The enclosing package; a name without a dot has none. -/
def package? (n : ModuleName) : Option ModuleName :=
  match n.components with
  | [] | [_] => none
  | parts => some ⟨Text.unfields '.' parts.dropLast⟩

/-- The name of a module in a package. -/
def child (package : ModuleName) (name : String) : ModuleName :=
  ⟨package.text ++ "." ++ name⟩

/-- The name of a module in a package, or on its own outside of any. -/
def inPackage (name : String) : Option ModuleName → ModuleName
  | some package => package.child name
  | none => ⟨name⟩

/-- Whether this is the name of the entry. -/
def isMain (n : ModuleName) : Bool :=
  n == main

/-- Whether a name lies strictly below a package: it begins with the package and a dot. -/
def isBelow (n : ModuleName) (package : String) : Bool :=
  Text.startsWith n.text (package ++ ".")

/-- The enclosing packages, innermost first; at most `bound` of them. -/
def enclosingUpTo : Nat → ModuleName → List ModuleName
  | 0, _ => []
  | bound + 1, n =>
    match n.package? with
    | none => []
    | some package => package :: enclosingUpTo bound package

/-- The enclosing packages, outermost first. Each step outwards drops a component, so there are fewer of them than
components. -/
def parentPackages (n : ModuleName) : List ModuleName :=
  (enclosingUpTo n.components.length n).reverse

/-- The order of names, that of their texts. -/
def lt (a b : ModuleName) : Bool :=
  decide (a.text < b.text)

end ModuleName

end ImportClosure
