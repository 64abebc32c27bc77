import ImportClosure.Module.Record
import ImportClosure.Python.Token
import ImportClosure.Text.WordCharacters

/-!
# Plain sources

Many a source holds nothing but import statements, one in a line, between empty lines and comments. Such a plain source
is read line by line, and the grammar is not needed for it. A line is plain if it can be read in one way only: it is not
indented, all its names are words that mean nothing else in an import, and brackets are closed in the line.
-/

namespace ImportClosure.Python.PlainSource

/-- A word or a sign of a line, with the blanks in front of it. -/
structure Piece where
  blanks : List Char
  text : List Char

/-- A dotted path in a line. -/
structure DottedPath where
  /-- The path without blanks. -/
  plain : List Char
  /-- The path as it is written, with the blanks in front of it and around its dots. -/
  written : List Char

namespace Piece

/-- The pieces of a text with one more character in front of them. A comment has no pieces. -/
def addFront (c : Char) (pieces : List Piece) : List Piece :=
  let isBlank := c = ' ' ∨ c = '\t'
  if c = '#' then []
  else
    match pieces with
    | [] => if isBlank then [] else [⟨[], [c]⟩]
    | p :: more =>
      if isBlank then { p with blanks := c :: p.blanks } :: more
      else if Text.isWordContinue c ∧ p.blanks = [] ∧ p.text.head?.any Text.isWordContinue then
        ⟨[], c :: p.text⟩ :: more
      else ⟨[], [c]⟩ :: p :: more

/-- The pieces of a line. -/
def ofLine (line : List Char) : List Piece := line.foldr addFront []

/-- Whether a piece is written like a text. -/
def is (text : String) (p : Piece) : Bool := p.text == text.toList

/-- The words that are tokens of their own, but never in an import. -/
def softKeywords : List String := ["print", "exec", "match", "case", "type", "_"]

/-- Whether a piece is a word that is nothing but a name in an import. -/
def isName (p : Piece) : Bool :=
  p.text.head?.any Text.isWordStart && Token.keywords.all fun word => softKeywords.contains word || !p.is word

/-- The pieces between the commas. -/
def betweenCommas : List Piece → List (List Piece)
  | [] => [[]]
  | p :: rest =>
    if p.is "," then [] :: betweenCommas rest
    else
      match betweenCommas rest with
      | [] => [[p]]
      | first :: more => (p :: first) :: more

/-- The pieces between brackets, without a comma at their end. -/
def inBrackets? : List Piece → Option (List Piece)
  | [] => none
  | p :: rest =>
    if p.is "(" ∧ rest.getLast?.any (is ")") then
      let inner := rest.dropLast
      some (if inner.getLast?.any (is ",") then inner.dropLast else inner)
    else none

end Piece

namespace DottedPath

/-- The path of one name. -/
def ofName (p : Piece) : DottedPath := ⟨p.text, p.blanks ++ p.text⟩

/-- A path behind a name and a dot. -/
def behind (path : DottedPath) (name dot : Piece) : DottedPath :=
  ⟨name.text ++ '.' :: path.plain, name.blanks ++ name.text ++ dot.blanks ++ '.' :: path.written⟩

/-- Reads a path, with the pieces behind it. -/
def read? : List Piece → Option (DottedPath × List Piece)
  | [] => none
  | [p] => if p.isName then some (ofName p, []) else none
  | p :: q :: rest =>
    if !p.isName then none
    else if q.is "." then (read? rest).map fun (path, rest) => (path.behind p q, rest)
    else some (ofName p, q :: rest)

/-- Reads a path that may be renamed. -/
def readClause? (pieces : List Piece) : Option DottedPath :=
  match read? pieces with
  | some (path, []) => some path
  | some (path, [as, name]) => if as.is "as" ∧ name.isName then some path else none
  | _ => none

/-- Reads paths with commas between them. -/
def readClauses? (pieces : List Piece) : Option (List String) :=
  (Piece.betweenCommas pieces).mapM fun clause => (readClause? clause).map fun path => String.ofList path.plain

end DottedPath

/-- Reads the module behind `from`: its dots and its path, with the pieces behind it. -/
def readModule? (pieces : List Piece) : Option (Nat × List Char × List Piece) :=
  match pieces.span (Piece.is ".") with
  | ([], rest) => (DottedPath.read? rest).map fun (path, rest) => (0, path.written, rest)
  | (dots, rest) =>
    if rest.head?.any (Piece.is "import") then some (dots.length, [], rest)
    else (DottedPath.read? rest).map fun (path, rest) => (dots.length, path.written, rest)

/-- Reads the names that are imported from a module. A star stands for all and names none. -/
def readNames? (pieces : List Piece) : Option (List String) :=
  match Piece.inBrackets? pieces, pieces with
  | some names, _ => DottedPath.readClauses? names
  | none, [p] => if p.is "*" then some [] else DottedPath.readClauses? pieces
  | none, _ => DottedPath.readClauses? pieces

/-- Reads the rest of a line behind `from`. -/
def readFrom? (line : Nat) (pieces : List Piece) : Option ImportStatement :=
  match readModule? pieces with
  | some (level, path, word :: names) =>
    if word.is "import" then
      (readNames? names).map fun names => ⟨String.ofList (path.dropWhile Text.isBlank), level, names, line⟩
    else none
  | _ => none

/-- Reads a line of a plain source. -/
def readLine? (line : Nat) (text : List Char) : Option (List ImportStatement) :=
  match Piece.ofLine text with
  | [] => some []
  | word :: pieces =>
    if word.blanks ≠ [] then none
    else if word.is "import" then
      (DottedPath.readClauses? pieces).map fun paths => paths.map fun path => ⟨path, 0, [], line⟩
    else if word.is "from" then (readFrom? line pieces).map fun statement => [statement]
    else none

/-- Reads the lines of a plain source. `before` is what lies before the text in its first line, and `found` what the
lines before that one say, both from the last to the first. -/
def readLines? (line : Nat) (before : List Char) (found : List ImportStatement) :
    List Char → Option (List ImportStatement)
  | [] => (readLine? line before.reverse).map fun statements => found.reverse ++ statements
  | c :: rest =>
    if c = '\n' then
      match readLine? line before.reverse with
      | some statements => readLines? (line + 1) [] (statements.reverse ++ found) rest
      | none => none
    else readLines? line (c :: before) found rest

/-- Reads a plain source. Other sources have no answer here. -/
def read? (text : List Char) : Option (List ImportStatement) :=
  if text.contains '\r' ∨ text.contains '\x00' then none else readLines? 1 [] [] text

end ImportClosure.Python.PlainSource
