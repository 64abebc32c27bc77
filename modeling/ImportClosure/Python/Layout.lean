import ImportClosure.Python.Place
import ImportClosure.Python.Token

/-!
# Layout

Line ends, indentation and the parts of strings are found by what has been opened before: the blocks that a line is
indented for, and the strings and formatted strings around a place. The layout of a place is what is open there. Each
layout token is only looked for where it is wanted.
-/

namespace ImportClosure.Python

/-- What opens a string, and how its text is to be read. -/
structure Delimiter where
  mark : Char
  isRaw : Bool
  isFormatted : Bool
  isBytes : Bool
  isTripled : Bool
  deriving DecidableEq

/-- What is open at a place, the innermost first. -/
structure Layout where
  inFormatted : Bool := false
  delimiters : List Delimiter := []
  indents : List Nat := []
  deriving DecidableEq, Inhabited

/-- A layout token with the layout behind it. -/
structure LayoutToken where
  token : Token
  layout : Layout
  start : Place
  stop : Place

/-- The outcome of a search for layout tokens. -/
inductive LayoutSearch where
  | found (t : LayoutToken)
  /-- There is none here. -/
  | refused
  /-- Nothing was found up to a place, behind which the search may go on. -/
  | passed (p : Place)

namespace Layout

/-- How much can be open at one place. -/
def capacity : Nat := 1022

/-- The layout without the innermost indentations for which there is no room. -/
def fit (l : Layout) : Layout :=
  { l with indents := l.indents.drop (l.delimiters.length + l.indents.length - capacity) }

def enter (l : Layout) (d : Delimiter) : Layout :=
  fit { l with inFormatted := d.isFormatted, delimiters := d :: l.delimiters }

def close (l : Layout) : Layout := { l with inFormatted := false, delimiters := l.delimiters.tail }

def indent (l : Layout) : Nat := l.indents.headD 0

/-- Columns are counted up to 256 and then from 0 again. -/
def push (l : Layout) (columns : Nat) : Layout := fit { l with indents := columns % 256 :: l.indents }

def pop (l : Layout) : Layout := { l with indents := l.indents.tail }

/-! ## Strings -/

/-- Looks for a doubled brace in a formatted string. A single brace is not for the layout to read. -/
def doubledBrace (l : Layout) (p : Place) : LayoutSearch :=
  match l.delimiters with
  | [] => .passed p
  | d :: _ =>
    if d.isFormatted ∧ (p.ahead = '\x7b' ∨ p.ahead = '\x7d') then
      if p.next.ahead = p.ahead then .found ⟨.doubledBrace, l, p, p.next.next⟩ else .refused
    else .passed p

/-- The place behind a backslash of a raw string and what it protects. -/
def skipProtected (d : Delimiter) (p : Place) : Place :=
  let p := if p.next.ahead = d.mark ∨ p.next.ahead = '\\' then p.next.next else p.next
  p.skipBreak?.getD (if p.ahead = '\r' then p.next else p)

/-- Looks for text or the end of a string. `nonempty` tells whether there is text already. -/
def stringPart (l : Layout) (d : Delimiter) (start : Place) : Nat → Place → Bool → LayoutSearch
  | 0, p, _ => .passed p
  | fuel + 1, p, nonempty =>
    let text (stop : Place) : LayoutSearch := .found ⟨.stringText, l, start, stop⟩
    let before : LayoutSearch := if nonempty then text p else .refused
    let c := p.ahead
    if c = '\x00' then .passed p
    else if (c = '\x7b' ∨ c = '\x7d') ∧ d.isFormatted then before
    else if c = '\\' then
      if d.isRaw then l.stringPart d start fuel (skipProtected d p) nonempty
      else if d.isBytes ∧ ['N', 'u', 'U'].contains p.next.ahead then
        l.stringPart d start fuel p.next.next.next true
      else before
    else if c = d.mark then
      if d.isTripled then
        if p.next.ahead ≠ c then text p.next
        else if p.next.next.ahead ≠ c then text p.next.next
        else if nonempty then text p
        else .found ⟨.stringEnd, l.close, start, p.next.next.next⟩
      else if nonempty then text p
      else .found ⟨.stringEnd, l.close, start, p.next⟩
    else if c = '\n' ∧ nonempty ∧ !d.isTripled then .refused
    else l.stringPart d start fuel p.next true

/-- The delimiter with one more letter in front of its mark, if the letter may stand there. -/
def Delimiter.withLetter? (d : Delimiter) (c : Char) : Option Delimiter :=
  if c = 'f' ∨ c = 'F' then some { d with isFormatted := true }
  else if c = 'r' ∨ c = 'R' then some { d with isRaw := true }
  else if c = 'b' ∨ c = 'B' then some { d with isBytes := true }
  else if c = 'u' ∨ c = 'U' then some d
  else none

/-- Looks for the begin of a string, behind some of the letters in front of its mark. -/
def stringStart (l : Layout) (start : Place) : Nat → Place → Delimiter → LayoutSearch
  | 0, _, _ => .refused
  | fuel + 1, p, d =>
    match Delimiter.withLetter? d p.ahead with
    | some d => l.stringStart start fuel p.next d
    | none =>
      let c := p.ahead
      let found (d : Delimiter) (stop : Place) : LayoutSearch := .found ⟨.stringStart, l.enter d, start, stop⟩
      if c = '\x60' then found { d with mark := c } p.next
      else if c = '\'' ∨ c = '"' then
        let q := p.next
        if q.ahead = c ∧ q.next.ahead = c then found { d with mark := c, isTripled := true } q.next.next
        else found { d with mark := c } q
      else .refused

/-! ## Lines -/

/-- The blanks and comments in front of a token. -/
structure Gap where
  stop : Place
  /-- Whether a line, or the text, ended in the gap. -/
  broken : Bool
  /-- The columns since the last line break. -/
  columns : Nat
  /-- The columns in front of the first comment. -/
  comment : Option Nat

/-- Reads a gap. Comments are part of it only if `comments` is set, and then only behind a line break; otherwise there
is no gap. A backslash must join two lines. -/
def gap? (comments : Bool) : Nat → Gap → Option Gap
  | 0, g => some g
  | fuel + 1, g =>
    let p := g.stop
    let c := p.ahead
    if p.isEnd then some { g with broken := true, columns := 0 }
    else if c = '\n' then gap? comments fuel { g with stop := p.next, broken := true, columns := 0 }
    else if c = ' ' then gap? comments fuel { g with stop := p.next, columns := g.columns + 1 }
    else if c = '\r' ∨ c = '\x0c' then gap? comments fuel { g with stop := p.next, columns := 0 }
    else if c = '\t' then gap? comments fuel { g with stop := p.next, columns := g.columns + 8 }
    else if c = '#' ∧ comments then
      if g.broken then
        let stop := (p.skipWhile fun c => c != '\n' && c != '\x00').next
        gap? comments fuel { g with stop, columns := 0, comment := g.comment <|> some g.columns }
      else none
    else if c = '\\' then
      let q := if p.next.ahead = '\r' then p.next.next else p.next
      if q.ahead = '\n' ∨ q.isEnd then gap? comments fuel { g with stop := q.next } else none
    else some g

/-- Looks for the line token behind a line break: more or fewer columns begin or end a block where that is wanted, and
fewer columns end a block also where nothing else could be meant. -/
def lineToken? (l : Layout) (wants : Token → Bool) (anywhere : Bool) (g : Gap) (start stop : Place) :
    Option LayoutToken :=
  let c := g.stop.ahead
  let startsString := c = '"' ∨ c = '\'' ∨ c = '\x60'
  let inBrackets := [")", "]", "\x7d"].any fun text => wants (.literal text)
  let mayEnd := wants .dedent || !wants .newline && !(wants .stringStart && startsString) && !inBrackets
  if wants .indent ∧ l.indent < g.columns then some ⟨.indent, l.push g.columns, start, stop⟩
  else if mayEnd ∧ g.columns < l.indent ∧ !l.inFormatted ∧ g.comment.all (· < l.indent) then
    some ⟨.dedent, l.pop, start, stop⟩
  else if wants .newline ∧ !anywhere then some ⟨.newline, l, start, stop⟩
  else none

/-- Looks for a line token or the begin of a string behind a gap. -/
def afterGap (l : Layout) (wants : Token → Bool) (anywhere : Bool) (start p : Place) : LayoutSearch :=
  let comments := wants .indent || wants .dedent || wants .newline || wants (.literal "except")
  match gap? comments (p.left + 1) ⟨p, false, 0, none⟩ with
  | none => .refused
  | some g =>
    let moved := p.offset < g.stop.offset
    match if g.broken then l.lineToken? wants anywhere g (if moved then p else start) p else none with
    | some t => .found t
    | none =>
      if g.comment.isNone ∧ wants .stringStart then
        l.stringStart (if moved then g.stop else start) (g.stop.left + 1) g.stop ⟨'"', false, false, false, false⟩
      else .refused

/-- Looks for the next layout token where some are wanted. Where text of a string and an indentation could both be
meant, the place is somewhere in a text that fits nowhere, and neither the parts of strings nor line ends are found. -/
def search (l : Layout) (wants : Token → Bool) (p : Place) : LayoutSearch :=
  let anywhere := wants .stringText && wants .indent
  let braces := if wants .doubledBrace && !anywhere then l.doubledBrace p else .passed p
  match braces with
  | .passed p =>
    let part :=
      match l.delimiters with
      | d :: _ => if wants .stringText && !anywhere then l.stringPart d p (p.left + 1) p false else .passed p
      | [] => .passed p
    match part with
    | .passed q => l.afterGap wants anywhere p q
    | other => other
  | other => other

end Layout

end ImportClosure.Python
