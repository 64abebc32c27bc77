import ImportClosure.Python.Number
import ImportClosure.Python.Place
import ImportClosure.Python.Token
import ImportClosure.Text.WordCharacters

/-!
# Lexemes

The tokens that are found by their text: words, numbers, signs, comments, and the pieces of strings that begin with a
backslash. Which of them are looked for depends on the place; of those the longest is taken, behind any blanks.
-/

namespace ImportClosure.Python

/-- The outcome of a search for a token: where it lies, or where the search stopped without one. -/
structure Lexeme where
  token : Option Token
  start : Place
  stop : Place

namespace Lexeme

/-- The characters that may stand in front of a token. -/
def isSeparator (c : Char) : Bool :=
  c == ' ' || (9 ≤ c.toNat && c.toNat ≤ 13) || c == '\ufeff' || c == '\u2060' || c == '\u200b'

def isHexDigit (c : Char) : Bool := (baseOf? 'x').any (· c)

/-- The place behind an escape sequence, given the place of its backslash. -/
def escapeEnd? (p : Place) : Option Place :=
  let q := p.next
  match q.ahead with
  | 'u' => q.next.skipExactly? isHexDigit 4
  | 'U' => q.next.skipExactly? isHexDigit 8
  | 'x' => q.next.skipExactly? isHexDigit 2
  | 'N' =>
    let name := q.next.next
    let stop := name.skipWhile fun c => c != '\x7d' && c != '\x00'
    if q.next.ahead = '\x7b' ∧ name.offset < stop.offset ∧ stop.ahead = '\x7d' then some stop.next else none
  | c =>
    if c.isDigit then q.skipExactly? Char.isDigit 3
    else if "'\"abfrntv\\".contains c then some q.next
    else q.skipBreak?

/-- Reads what begins with a backslash: an escape, a joint of lines, or the backslash alone. Only the joint may stand
behind blanks. -/
def readBackslash (wants : Token → Bool) (p : Place) (behindBlank : Bool) : Option Token × Place :=
  match if behindBlank || !wants .escape then none else escapeEnd? p with
  | some stop => (some .escape, stop)
  | none =>
    if wants .joint then
      let q := p.next
      if !q.isEnd ∧ q.ahead = '\x00' then (some .joint, q.next)
      else
        match q.skipBreak? with
        | some stop => (some .joint, stop)
        | none =>
          if !behindBlank && wants .backslash then (some .backslash, q)
          else (none, if q.ahead = '\r' then q.next else q)
    else (none, p)

/-- Reads a sign, or an exclamation mark with a conversion. -/
def readSign (wants : Token → Bool) (p : Place) : Option Token × Place :=
  if p.ahead = '!' ∧ p.next.ahead.isLower ∧ wants .conversion then (some .conversion, p.next.next)
  else
    match Token.signs.find? fun (text, token) => text.isPrefixOf p.rest && wants token with
    | some (text, token) => (some token, p.skip text.length)
    | none => (none, if p.ahead = '!' then p.next else p)

/-- Reads a number. -/
def readNumber? (p : Place) : Option (Token × Place) :=
  (number? p.rest).map fun (token, length) => (token, p.skip length)

/-- Reads text that says how a value is written, or the brace in which it ends. -/
def readFormat (wants : Token → Bool) (p : Place) : Option Token × Place :=
  let stop := p.skipWhile fun c => c != '\x7b' && c != '\x7d' && c != '\n' && c != '\x00'
  if p.offset < stop.offset then (some .formatText, stop) else readSign wants p

/-- Reads the longest token at a place. -/
def readToken (wants : Token → Bool) (p : Place) (behindBlank : Bool) : Option Token × Place :=
  if p.isEnd then (none, p)
  else if p.ahead = '\\' then readBackslash wants p behindBlank
  else if p.ahead = '#' ∧ wants .comment then
    (some .comment, p.skipWhile fun c => c != '\n' && c != '\x00')
  else if "except*".toList.isPrefixOf p.rest ∧ wants (.literal "except*") then readSign wants p
  else if Text.isWordStart p.ahead ∧ wants .name then (some .name, p.skipWhile Text.isWordContinue)
  else
    match if wants .integer then readNumber? p else none with
    | some (token, stop) => (some token, stop)
    | none => readSign wants p

/-- Looks for a token behind blanks. Blanks are part of the text that says how a value is written, line breaks are
not. -/
def find (wants : Token → Bool) (p : Place) : Lexeme :=
  let format := wants .formatText
  let start := p.skipWhile fun c => if format then c == '\n' else isSeparator c
  if start.isEnd ∧ wants .endOfText then ⟨some .endOfText, start, start⟩
  else
    let (token, stop) := if format then readFormat wants start else readToken wants start (p.offset < start.offset)
    ⟨token, start, stop⟩

end Lexeme

end ImportClosure.Python
