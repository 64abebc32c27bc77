/-!
# Readers of TOML text

A reader takes the front of a text or refuses it. Blanks are spaces and tabulators, a line ends at a line break or at
the end of the text, and a comment may stand before the end of a line.
-/

namespace ImportClosure.Toml

abbrev Reader := StateT (List Char) Option

/-- A text with every line break written as one character. -/
def foldBreaks : List Char → List Char
  | '\r' :: '\n' :: rest => '\n' :: foldBreaks rest
  | c :: rest => c :: foldBreaks rest
  | [] => []

/-- A text without the mark that may stand before it. -/
def dropMark : List Char → List Char
  | '\ufeff' :: rest => rest
  | text => text

/-- A character of a bare word. -/
def isWordChar (c : Char) : Bool :=
  c.isAlphanum || c == '-' || c == '_'

namespace Reader

/-- Takes characters as long as they are of a class. -/
def takeWhile (p : Char → Bool) : Reader (List Char) := fun text => some (text.takeWhile p, text.dropWhile p)

/-- Takes a character if it is ahead. -/
def char? (c : Char) : Reader Bool
  | d :: rest => some (if d = c then (true, rest) else (false, d :: rest))
  | [] => some (false, [])

/-- Takes a character that has to be ahead. -/
def char (c : Char) : Reader Unit := do guard (← char? c)

/-- Takes blanks. -/
def blanks : Reader Unit := do
  let _ ← takeWhile fun c => c == ' ' || c == '\t'

/-- Takes a bare word, which has to be ahead. -/
def word : Reader (List Char) := do
  let word ← takeWhile isWordChar
  guard (!word.isEmpty)
  return word

/-- Takes a comment if one is ahead. -/
def comment? : Reader Bool := do
  if ← char? '#' then
    let _ ← takeWhile fun c => c == '\t' || ' ' ≤ c
    return true
  else return false

/-- Takes the end of a line, with a comment before it. -/
def lineEnd : Reader Unit := do
  let _ ← comment?
  match ← get with
  | [] => return
  | _ => char '\n'

/-- Takes blanks, comments and line breaks. -/
def gap : Nat → Reader Unit
  | 0 => pure ()
  | n + 1 => do
    blanks
    if ← char? '\n' then gap n
    else if ← comment? then
      lineEnd
      gap n

/-- Takes blanks, comments and line breaks, however many there are. -/
def gaps : Reader Unit := fun text => gap (text.length + 1) text

/-- The text that a reader takes. -/
def written (p : Reader Unit) : Reader String := fun text => do
  let ((), rest) ← p text
  return (String.ofList (text.take (text.length - rest.length)), rest)

end Reader

end ImportClosure.Toml
