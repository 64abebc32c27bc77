import ImportClosure.Module.Record
import ImportClosure.Python.Parser
import ImportClosure.Python.PlainSource
import ImportClosure.Python.Rules
import ImportClosure.Text.Letters

/-!
# Imports of a source

The imports in the tree of a source, in its order, and the line of its first fault. The module behind `from` is kept as
it is written; of all other dotted names the blanks are dropped. What a source takes from `__future__` is a setting and
imports nothing. A source with a fault has no imports, only the line of the fault.
-/

namespace ImportClosure.Python

namespace Tree

/-- Whether a tree is a phrase of some kind. -/
def is (p : Phrase) (t : Tree) : Bool := t.label == .phrase p.number

/-- The text of a tree. -/
def text (t : Tree) : List Char := t.info.start.textTo t.info.stop

/-- The line in which a tree begins. -/
def line (t : Tree) : Nat := t.info.start.line + 1

mutual

/-- The line of the first fault among what a tree shows. -/
def firstFault? : Tree → Option Nat
  | node info children =>
    if info.cost = 0 then none
    else if info.label == .error || info.isMissing then some (info.start.line + 1)
    else firstFaultOf? info.marks children

/-- The line of the first fault in trees with the given marks. Trees that do not stand for themselves are looked
through. -/
def firstFaultOf? : List Bool → List Tree → Option Nat
  | _, [] => none
  | marks, t@(node info children) :: rest =>
    let isMarked := !info.isExtra && marks.headD false
    let first := if info.isShown || isMarked then firstFault? t else firstFaultOf? info.marks children
    first <|> firstFaultOf? (if info.isExtra then marks else marks.tail) rest

end

/-- The line of the fault that a tree for a whole text reports, if it has one. -/
def faultLine? (t : Tree) : Option Nat :=
  if t.cost = 0 then none else some ((t.firstFault?).getD t.line)

/-- A dotted name without its blanks. -/
def plainName (t : Tree) : String := String.ofList (t.text.filter fun c => !Text.isBlank c)

/-- The imported name that a tree stands for, if it is one; it may be renamed. -/
def importedName? (t : Tree) : Option String :=
  if t.is .dottedName then some t.plainName
  else if t.is .renamedName then (t.children.find? (is .dottedName)).map plainName
  else none

mutual

/-- The imported names in a tree. -/
def importedNames : Tree → List String
  | t@(node _ children) =>
    match t.importedName? with
    | some name => [name]
    | none => importedNamesOf children

/-- The imported names in trees. -/
def importedNamesOf : List Tree → List String
  | [] => []
  | t :: rest => importedNames t ++ importedNamesOf rest

end

/-- The dots and the path of the module behind `from`. -/
def moduleOf (t : Tree) : Nat × String :=
  if t.is .relativeName then
    let dots := ((t.children.find? (is .leadingDots)).map text).getD []
    let path := ((t.children.find? (is .dottedName)).map text).getD []
    (dots.count '.', String.ofList path)
  else (0, String.ofList t.text)

/-- The statement that an import from a module makes. -/
def fromStatement? (t : Tree) : Option ImportStatement :=
  match t.children.span fun c => !(c.is .relativeName || c.is .dottedName) with
  | (_, module :: rest) =>
    let (level, path) := module.moduleOf
    some ⟨path, level, importedNamesOf rest, t.line⟩
  | _ => none

mutual

/-- The import statements in a tree. -/
def imports : Tree → List ImportStatement
  | t@(node _ children) =>
    if t.is .importStatement then (importedNamesOf children).map fun name => ⟨name, 0, [], t.line⟩
    else if t.is .fromImport then t.fromStatement?.toList
    else importsOf children

/-- The import statements in trees. -/
def importsOf : List Tree → List ImportStatement
  | [] => []
  | t :: rest => imports t ++ importsOf rest

end

end Tree

/-- The tables of the grammar, made when they are first asked for. -/
def tables : Thunk Parsing.Tables := Thunk.mk fun _ => description.tables

/-- Reads a source as the grammar has it. -/
def parseImports (text : List Char) : Except Nat (List ImportStatement) :=
  match parse tables.get text with
  | none => .error 1
  | some tree =>
    match tree.faultLine? with
    | some line => .error line
    | none => .ok tree.imports

/-- The import statements of a source, or the line of its first error. A plain source has no error in it; for the others
the grammar decides. -/
def readImports (source : String) : Except Nat (List ImportStatement) :=
  match PlainSource.read? source.toList with
  | some statements => .ok statements
  | none => parseImports source.toList

end ImportClosure.Python
