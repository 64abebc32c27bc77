/-!
# Tokens

The tokens of a source. Most are literal: a sign, or a word that is not free to be a name. A few tokens are found by the
layout of the lines and of the strings, not by their text alone.
-/

namespace ImportClosure.Python

inductive Token where
  | endOfText
  /-- A word that is free to be a name. -/
  | name
  | literal (text : String)
  | integer
  | float
  /-- A backslash with what it stands for in a string. -/
  | escape
  /-- A backslash that stands for itself. -/
  | backslash
  /-- Text that says how a value is written into a string. -/
  | formatText
  /-- An exclamation mark with the letter of a conversion. -/
  | conversion
  | comment
  /-- A backslash that joins a line to the next. -/
  | joint
  | newline
  | indent
  | dedent
  | stringStart
  | stringText
  /-- A brace that is written twice to stand for itself. -/
  | doubledBrace
  | stringEnd
  deriving DecidableEq, Inhabited

namespace Token

/-- All tokens, in the order of their numbers. -/
def all : List Token :=
  [endOfText, name] ++
  [";", "import", ".", "from", "__future__", "(", ")", ",", "as", "*", "print", ">>", "assert", ":=", "return", "del",
    "raise", "pass", "break", "continue", "if", ":", "elif", "else", "match", "case", "async", "for", "in", "while",
    "try", "except", "except*", "finally", "with", "def", "->", "**", "global", "nonlocal", "exec", "type", "=",
    "class", "[", "]", "@", "-", "_", "|", "\x7b", "\x7d", "+", "not", "and", "or", "/", "%", "//", "&", "^", "<<",
    "~", "is", "<", "<=", "==", "!=", ">=", ">", "<>", "lambda", "+=", "-=", "*=", "/=", "@=", "//=", "%=", "**=",
    ">>=", "<<=", "&=", "^=", "|=", "yield", "..."].map literal ++
  [escape, backslash, formatText, conversion, integer, float] ++
  ["await", "True", "False", "None"].map literal ++
  [comment, joint, newline, indent, dedent, stringStart, stringText, doubledBrace, stringEnd]

def number (t : Token) : Nat := all.idxOf t

def ofNumber (n : Nat) : Token := all.getD n endOfText

/-- The texts of the literal tokens. -/
def literals : List String :=
  all.filterMap fun
    | literal text => some text
    | _ => none

/-- Whether a text is a word, as far as the literal tokens are concerned. -/
def isWord (text : String) : Bool := text.toList.all fun c => c.isAlpha || c == '_'

/-- The words that are tokens of their own. -/
def keywords : List String := literals.filter isWord

/-- The signs with their characters, longer ones first, so that the first to fit is the longest. -/
def signs : List (List Char × Token) :=
  ((literals.filter fun text => !isWord text).mergeSort fun s t => t.length ≤ s.length).map fun text =>
    (text.toList, literal text)

/-- The tokens that are found by layout. -/
def layout : List Token := [newline, indent, dedent, stringStart, stringText, doubledBrace, stringEnd]

/-- The tokens at which the layout of lines may end, and those in which it has no part. -/
def closing : List Token := [literal ")", literal "]", literal "\x7d", literal "except", comment]

/-- Pairs of tokens of which the first may be read where the second was meant. -/
def mistakable : List (Token × Token) :=
  [(literal "assert", literal "as"), (literal "async", literal "as"), (literal ":=", literal ":"),
    (literal "except*", name), (literal "except*", literal "except"), (literal "->", literal "-"),
    (literal "**", literal "*"), (literal "**=", literal "*"), (literal "...", literal "."), (escape, backslash),
    (escape, joint), (float, integer), (joint, backslash)]

/-- Whether one token may be read where another was meant. Text that says how a value is written can be anything. -/
def isMistakable (read meant : Token) : Bool :=
  read != meant && (read == formatText || meant == formatText || mistakable.contains (read, meant))

end Token

end ImportClosure.Python
