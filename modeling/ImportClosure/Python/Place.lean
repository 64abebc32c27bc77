/-!
# Places

A place in a source, by the text that lies behind it. A place knows how many bytes and line breaks lie before it.
-/

namespace ImportClosure.Python

structure Place where
  rest : List Char
  /-- The number of characters behind the place. -/
  left : Nat
  /-- The bytes of UTF-8 before the place. -/
  offset : Nat
  /-- The line breaks before the place. -/
  line : Nat
  deriving Inhabited

namespace Place

def ofText (text : List Char) : Place := ⟨text, text.length, 0, 0⟩

def isEnd (p : Place) : Bool := p.rest.isEmpty

/-- The character behind the place. The end of a text looks like a null character. -/
def ahead (p : Place) : Char := p.rest.headD '\x00'

/-- The place one character further. There is none behind the end. -/
def next (p : Place) : Place :=
  match p.rest with
  | [] => p
  | c :: rest => ⟨rest, p.left - 1, p.offset + c.utf8Size, if c = '\n' then p.line + 1 else p.line⟩

/-- The place some characters further. -/
def skip (p : Place) : Nat → Place
  | 0 => p
  | n + 1 => p.next.skip n

/-- The place behind all characters that pass a test. -/
def skipWhile (test : Char → Bool) (p : Place) : Place := p.skip (p.rest.takeWhile test).length

/-- The place behind some characters, if they all pass a test. -/
def skipExactly? (test : Char → Bool) (n : Nat) (p : Place) : Option Place :=
  let chars := p.rest.take n
  if chars.length = n ∧ chars.all test then some (p.skip n) else none

/-- The text between a place and a later one. -/
def textTo (p stop : Place) : List Char := p.rest.take (p.left - stop.left)

/-- The place behind a line break, which may begin with a carriage return. -/
def skipBreak? (p : Place) : Option Place :=
  let q := if p.ahead = '\r' then p.next else p
  if q.ahead = '\n' then some q.next else none

/-- The place at which reading begins: a mark of byte order at the front of the text is no part of it. -/
def begin (p : Place) : Place := if p.offset = 0 ∧ p.ahead = '\ufeff' then p.next else p

end Place

end ImportClosure.Python
