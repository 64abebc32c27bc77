/-!
# Quoted text

Text between two quotes, as JSON writes it. `encode` escapes the quote, the backslash and the control characters and
leaves all else alone; `decode?` takes every escape that the format knows and refuses half of a surrogate pair.
-/

namespace ImportClosure.Quoted

/-- The lower-case hexadecimal digit of a number below 16. -/
def hexDigit (n : Nat) : Char :=
  if n < 10 then Char.ofNat (48 + n) else Char.ofNat (87 + n)

/-- A character as it stands between quotes. -/
def escape (c : Char) : List Char :=
  if c = '"' then ['\\', '"']
  else if c = '\\' then ['\\', '\\']
  else if c = '\n' then ['\\', 'n']
  else if c = '\r' then ['\\', 'r']
  else if c = '\t' then ['\\', 't']
  else if c = '\x08' then ['\\', 'b']
  else if c = '\x0c' then ['\\', 'f']
  else if c.toNat < 32 then ['\\', 'u', '0', '0', hexDigit (c.toNat / 16), hexDigit (c.toNat % 16)]
  else [c]

/-- Writes a text, without the quotes around it. -/
def encode (s : String) : String :=
  String.ofList (s.toList.flatMap escape)

/-- The value of a hexadecimal digit. -/
def hexValue? (c : Char) : Option Nat :=
  if '0' ≤ c ∧ c ≤ '9' then some (c.toNat - 48)
  else if 'a' ≤ c ∧ c ≤ 'f' then some (c.toNat - 87)
  else if 'A' ≤ c ∧ c ≤ 'F' then some (c.toNat - 55)
  else none

/-- The value of hexadecimal digits. -/
def hexNumber? (digits : List Char) : Option Nat :=
  digits.foldlM (fun n c => (hexValue? c).map fun d => 16 * n + d) 0

/-- The first half of a surrogate pair. -/
def isHighSurrogate (unit : Nat) : Bool :=
  0xD800 ≤ unit && unit < 0xDC00

/-- The second half of a surrogate pair. -/
def isLowSurrogate (unit : Nat) : Bool :=
  0xDC00 ≤ unit && unit < 0xE000

/-- The character of a surrogate pair. -/
def pairChar (high low : Nat) : Char :=
  Char.ofNat (0x10000 + (high - 0xD800) * 0x400 + (low - 0xDC00))

/-- The character that a one-letter escape stands for. -/
def letterEscape? : Char → Option Char
  | '"' => some '"'
  | '\\' => some '\\'
  | '/' => some '/'
  | 'b' => some '\x08'
  | 'f' => some '\x0c'
  | 'n' => some '\n'
  | 'r' => some '\r'
  | 't' => some '\t'
  | _ => none

/-- Reads what stands between quotes. -/
def decodeChars : List Char → Option (List Char)
  | [] => some []
  | '\\' :: 'u' :: a :: b :: c :: d :: rest => do
    let unit ← hexNumber? [a, b, c, d]
    if isHighSurrogate unit then
      match rest with
      | '\\' :: 'u' :: a' :: b' :: c' :: d' :: rest' => do
        let low ← hexNumber? [a', b', c', d']
        if isLowSurrogate low then (decodeChars rest').map (pairChar unit low :: ·) else none
      | _ => none
    else if isLowSurrogate unit then none
    else (decodeChars rest).map (Char.ofNat unit :: ·)
  | '\\' :: e :: rest => do
    let c ← letterEscape? e
    (decodeChars rest).map (c :: ·)
  | c :: rest => if c = '"' ∨ c = '\\' ∨ c.toNat < 32 then none else (decodeChars rest).map (c :: ·)

/-- The text that stands between quotes. -/
def decode? (written : String) : Option String :=
  (decodeChars written.toList).map String.ofList

/-- Finds the closing quote: what stands in front of it and what behind. The escapes must be ones that the format knows,
but halves of surrogate pairs pass here. -/
def toQuote : List Char → Option (List Char × List Char)
  | [] => none
  | '"' :: rest => some ([], rest)
  | '\\' :: 'u' :: a :: b :: c :: d :: rest => do
    let _ ← hexNumber? [a, b, c, d]
    (toQuote rest).map fun (inside, behind) => ('\\' :: 'u' :: a :: b :: c :: d :: inside, behind)
  | '\\' :: e :: rest => do
    let _ ← letterEscape? e
    (toQuote rest).map fun (inside, behind) => ('\\' :: e :: inside, behind)
  | c :: rest =>
    if c = '\\' ∨ c.toNat < 32 then none else (toQuote rest).map fun (inside, behind) => (c :: inside, behind)

end ImportClosure.Quoted
