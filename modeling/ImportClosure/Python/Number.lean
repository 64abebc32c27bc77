import ImportClosure.Python.Token

/-!
# Number literals

The longest number at the front of a text. Digits may be grouped by single underscores.
-/

namespace ImportClosure.Python

/-- How many characters of a text are digits; an underscore may follow each digit. -/
def digitsLength : List Char → Nat
  | [] => 0
  | [c] => if c.isDigit then 1 else 0
  | c :: '_' :: rest => if c.isDigit then digitsLength rest + 2 else 0
  | c :: d :: rest => if c.isDigit then digitsLength (d :: rest) + 1 else 0

/-- How many characters of a text are digits of a base; an underscore may precede each digit. -/
def baseDigitsLength (isDigit : Char → Bool) : List Char → Nat
  | '_' :: d :: rest => if isDigit d then baseDigitsLength isDigit rest + 2 else 0
  | d :: rest => if isDigit d then baseDigitsLength isDigit rest + 1 else 0
  | [] => 0

/-- How many characters of a text are one of the given ones, but at most one. -/
def suffixLength (letters : List Char) (text : List Char) : Nat :=
  if text.head?.any letters.contains then 1 else 0

/-- How many characters of a text are an exponent. -/
def exponentLength (text : List Char) : Nat :=
  let sign := suffixLength ['+', '-'] text.tail
  let digits := digitsLength (text.drop (1 + sign))
  if text.head?.any (['e', 'E'].contains ·) ∧ 0 < digits then 1 + sign + digits else 0

/-- The digits that a letter behind a zero announces. -/
def baseOf? : Char → Option (Char → Bool)
  | 'x' | 'X' => some fun c => c.isDigit || ('a' ≤ c && c ≤ 'f') || ('A' ≤ c && c ≤ 'F')
  | 'o' | 'O' => some fun c => '0' ≤ c && c ≤ '7'
  | 'b' | 'B' => some fun c => c == '0' || c == '1'
  | _ => none

/-- How long the number in another base than ten is, if a text begins with one. -/
def basedLength? : List Char → Option Nat
  | '0' :: letter :: rest =>
    match baseOf? letter with
    | none => none
    | some isDigit =>
      let digits := baseDigitsLength isDigit rest
      if digits = 0 then none else some (2 + digits + suffixLength ['l', 'L'] (rest.drop digits))
  | _ => none

/-- The decimal number at the front of a text and its length. -/
def decimalNumber? (text : List Char) : Option (Token × Nat) :=
  let whole := digitsLength text
  let behind := text.drop whole
  if behind.head? = some '.' then
    let part := digitsLength behind.tail
    let mantissa := whole + 1 + part
    let exponent := exponentLength (text.drop mantissa)
    let length := mantissa + exponent + suffixLength ['j', 'J'] (text.drop (mantissa + exponent))
    if whole + part = 0 then none else some (.float, length)
  else if whole = 0 then none
  else
    let exponent := exponentLength behind
    if exponent = 0 then some (.integer, whole + suffixLength ['l', 'L', 'j', 'J'] behind)
    else some (.float, whole + exponent + suffixLength ['j', 'J'] (behind.drop exponent))

/-- The number at the front of a text and its length. -/
def number? (text : List Char) : Option (Token × Nat) :=
  match basedLength? text with
  | some length => some (.integer, length)
  | none => decimalNumber? text

end ImportClosure.Python
