import ImportClosure.Text.Fields

/-!
# Paths

A path keeps the text it was given, since messages show it, and is compared by its components: doubled and trailing
slashes and inner dots do not count, a parent step does. `absolute` writes a path from the root without looking at any
file, so it removes no parent step.
-/

namespace ImportClosure

/-- A path as it was written. -/
structure Path where
  text : String
  deriving DecidableEq, Inhabited

namespace Path

/-- What one step of a path is. The order of the constructors is the order of paths. -/
inductive Component where
  | root
  | here
  | parent
  | name (text : String)
  deriving DecidableEq

namespace Component

/-- The text of a component between two slashes. -/
def text : Component → String
  | root => ""
  | here => "."
  | parent => ".."
  | name s => s

/-- The place of a component's kind in the order. -/
def rank : Component → Nat
  | root => 0
  | here => 1
  | parent => 2
  | name _ => 3

/-- Names are compared by their text, all else by kind. -/
def lt (a b : Component) : Bool :=
  a.rank < b.rank || (a.rank == b.rank && decide (a.text < b.text))

end Component

/-- Whether a path begins at the root. -/
def isAbsolute (p : Path) : Bool :=
  Text.startsWith p.text "/"

/-- What stands between the slashes of a path. -/
def fields (p : Path) : List String :=
  Text.fields '/' p.text

/-- Fields that are no step: nothing between two slashes, or a dot. -/
def isIdle (field : String) : Bool :=
  field == "" || field == "."

/-- The step that a field stands for. -/
def component? (field : String) : Option Component :=
  if isIdle field then none
  else if field == ".." then some .parent
  else some (.name field)

/-- The steps of a path. A leading dot of a relative path is a step, every other dot is none. -/
def components (p : Path) : List Component :=
  match p.isAbsolute, p.fields with
  | true, fs => .root :: fs.tail.filterMap component?
  | false, "." :: rest => .here :: rest.filterMap component?
  | false, fs => fs.filterMap component?

/-- Lexicographic order of component lists. -/
def componentsLt : List Component → List Component → Bool
  | [], [] => false
  | [], _ :: _ => true
  | _ :: _, [] => false
  | a :: as, b :: bs => a.lt b || (a == b && componentsLt as bs)

/-- The last step, if it is a name. -/
def fileName (p : Path) : Option String :=
  match p.components.getLast? with
  | some (.name s) => some s
  | _ => none

/-- Drops the last step of a list of fields with what is idle around it; `none` if there is no step. -/
def dropStep (fs : List String) : Option (List String) :=
  match fs.reverse.dropWhile isIdle with
  | [] => none
  | _ :: rest => some (rest.dropWhile isIdle).reverse

/-- The path without its last step. The root and the empty path have none to drop. -/
def parent? (p : Path) : Option Path :=
  match p.isAbsolute, p.fields with
  | true, fs => (dropStep fs.tail).map fun kept => ⟨"/" ++ Text.unfields '/' kept⟩
  | false, "." :: rest =>
    match dropStep rest with
    | some [] => some ⟨"."⟩
    | some kept => some ⟨"./" ++ Text.unfields '/' kept⟩
    | none => some ⟨""⟩
  | false, fs => (dropStep fs).map fun kept => ⟨Text.unfields '/' kept⟩

/-- A path taken from a directory. An absolute one stays as it is. -/
def join (base p : Path) : Path :=
  if p.isAbsolute then p
  else if base.text == "" || Text.endsWith base.text "/" then ⟨base.text ++ p.text⟩
  else ⟨base.text ++ "/" ++ p.text⟩

/-- A name in a directory. -/
def child (dir : Path) (name : String) : Path :=
  dir.join ⟨name⟩

/-- Whether the steps of a path begin with those of another. -/
def startsWith (p base : Path) : Bool :=
  base.components.isPrefixOf p.components

/-- Where an absolute path begins: two slashes stay two, more are one. -/
def rootText (p : Path) : String :=
  if Text.startsWith p.text "//" && !Text.startsWith p.text "///" then "//" else "/"

/-- The steps below a starting place, written with single slashes. -/
def below (start : String) (steps : List Component) : String :=
  steps.foldl (fun text step => (Path.join ⟨text⟩ ⟨step.text⟩).text) start

/-- The path from the root, for a path that is relative to `workDir`. Idle fields go, a trailing slash stays; the empty
path has no absolute form and stays empty. -/
def absolute (p workDir : Path) : Path :=
  if p.text == "" then p
  else
    let start := if p.isAbsolute then p.rootText else workDir.text
    let steps := p.components.filter fun step => step != .root && step != .here
    let text := below start steps
    if Text.endsWith p.text "/" && !Text.endsWith text "/" then ⟨text ++ "/"⟩ else ⟨text⟩

end Path

end ImportClosure
