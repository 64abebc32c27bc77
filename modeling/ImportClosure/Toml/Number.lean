import ImportClosure.Toml.Reader

/-!
# TOML numbers and times

A number is read as far as bare words, points and signs belong to it, and refused if it is malformed or too large. A
time is told from a number by its first word; whether it is a time that exists is not looked at.
-/

namespace ImportClosure.Toml

/-- What the digits read so far allow to come next. -/
structure DigitState where
  isFirst : Bool := true
  /-- Whether the first digit is a zero, which may have to stand alone. -/
  leadsWithZero : Bool := false
  isGrouping : Bool := false

/-- Splits digits from what stands behind them. An underscore stands between two digits. -/
def splitDigits (isDigit : Char → Bool) (zerosMayLead : Bool) (s : DigitState) :
    List Char → Option (List Char × List Char)
  | [] => if s.isFirst || s.isGrouping then none else some ([], [])
  | c :: rest =>
    let goOn (next : DigitState) : Option (List Char × List Char) := do
      let (digits, behind) ← splitDigits isDigit zerosMayLead next rest
      return (if c = '_' then digits else c :: digits, behind)
    if c = '0' ∧ s.isFirst then goOn { s with isFirst := false, leadsWithZero := true }
    else if isDigit c then
      if !s.isFirst && s.leadsWithZero && !zerosMayLead then none
      else goOn { s with isFirst := false, isGrouping := false }
    else if c = '_' ∧ s.isFirst then none
    else if c = '_' ∧ !s.isGrouping then goOn { s with isGrouping := true }
    else if s.isFirst || s.isGrouping then none
    else some ([], c :: rest)

/-- Splits decimal digits, maybe with a sign before them, from what stands behind them. -/
def splitDecimal (signMayLead zerosMayLead : Bool) (text : List Char) : Option (Bool × List Char × List Char) := do
  let (isNegative, text) := match text with
    | '-' :: rest => if signMayLead then (true, rest) else (false, text)
    | '+' :: rest => if signMayLead then (false, rest) else (false, text)
    | _ => (false, text)
  let (digits, behind) ← splitDigits Char.isDigit zerosMayLead {} text
  return (isNegative, digits, behind)

/-- The value of a digit of any base up to sixteen. -/
def digitValue (c : Char) : Nat :=
  if c.isDigit then c.toNat - 48 else if 'a' ≤ c then c.toNat - 87 else c.toNat - 55

/-- Whether a character is a digit of a base up to sixteen. -/
def isDigitOf (base : Nat) (c : Char) : Bool :=
  (c.isDigit || ('a' ≤ c && c ≤ 'f') || ('A' ≤ c && c ≤ 'F')) && digitValue c < base

/-- The number that digits write. -/
def ofDigits (base : Nat) (digits : List Char) : Nat :=
  digits.foldl (fun n c => n * base + digitValue c) 0

/-- Whether a word is an integer that fits into 64 bits with a sign. -/
def isInteger (word : List Char) : Bool :=
  match splitDecimal true false word with
  | some (isNegative, digits, []) => ofDigits 10 digits < Nat.pow 2 63 + if isNegative then 1 else 0
  | _ => false

/-- Whether a word is the digits of an integer in another base. -/
def isBasedInteger (base : Nat) (word : List Char) : Bool :=
  match splitDigits (isDigitOf base) true {} word with
  | some (digits, []) => ofDigits base digits < Nat.pow 2 63
  | _ => false

/-- The least number that rounds to infinity in double precision. -/
def overflow : Nat := Nat.pow 2 1024 - Nat.pow 2 970

/-- Whether a number in scientific notation rounds to no infinity in double precision. An exponent that decides by its
size alone is not raised to. -/
def isFinite (digits fraction : List Char) (isNegative : Bool) (exponent : Nat) : Bool :=
  let n := ofDigits 10 (digits ++ fraction)
  if n = 0 then true
  else if isNegative then exponent > digits.length || n < overflow * Nat.pow 10 (fraction.length + exponent)
  else exponent ≤ 400 + fraction.length && n * Nat.pow 10 exponent < overflow * Nat.pow 10 fraction.length

namespace Reader

/-- Reads the exponent of a float from what stands behind its digits, and tells its sign and digits. -/
def exponent (behind : List Char) : Reader (Bool × List Char) := do
  match behind with
  | [] => return (false, [])
  | e :: rest =>
    guard (e == 'e' || e == 'E')
    let (isNegative, digits, behind) ←
      if rest.isEmpty then
        let _ ← char? '+'
        splitDecimal false true (← word)
      else splitDecimal true true rest
    guard behind.isEmpty
    return (isNegative, digits)

/-- Reads a float from its first word, and the word behind its point if there is one. -/
def float (first : List Char) (second : Option (List Char)) : Reader Unit := do
  let (_, digits, behind) ← splitDecimal true false first
  let (fraction, behind) ← match second with
    | none => pure ([], behind)
    | some second => do
      guard behind.isEmpty
      let (_, fraction, behind) ← splitDecimal false true second
      pure (fraction, behind)
  let (isNegative, exponent) ← exponent behind
  guard (isFinite digits fraction isNegative (ofDigits 10 exponent))

/-- Reads the rest of a number from its first word. -/
def numberFrom (first : List Char) : Reader Unit := do
  match first with
  | '0' :: 'x' :: rest => guard (isBasedInteger 16 rest)
  | '0' :: 'o' :: rest => guard (isBasedInteger 8 rest)
  | '0' :: 'b' :: rest => guard (isBasedInteger 2 rest)
  | _ =>
    if first.contains 'e' || first.contains 'E' then float first none
    else if ← char? '.' then float first (some (← word))
    else
      let isNamed := ["inf", "-inf", "nan", "-nan"].contains (String.ofList first)
      guard (isNamed || isInteger first)

/-- Reads the rest of a time behind its first word and maybe its first colon. -/
def timeFrom (isColonTaken : Bool) : Reader Unit := do
  match ← get with
  | ' ' :: c :: _ =>
    if isWordChar c then
      char ' '
      let _ ← word
  | _ => pure ()
  let isClock ← if isColonTaken then pure true else char? ':'
  if isClock then
    let _ ← word
    char ':'
    let _ ← word
    if ← char? '.' then
      let _ ← word
    if ← char? '+' then
      let _ ← word
    if ← char? ':' then
      let _ ← word

/-- Whether the first word of a time is told by a letter or a dash in it. -/
def isDate (first : List Char) : Bool :=
  let isExponent (e : Char) : Bool := (first.zip first.tail).contains (e, '-')
  first.contains 'T' || first.contains 't' || (first.tail.contains '-' && !isExponent 'e' && !isExponent 'E')

end Reader

end ImportClosure.Toml
