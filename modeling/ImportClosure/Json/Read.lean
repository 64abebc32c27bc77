import ImportClosure.Json

/-!
# Reading JSON

A text is a document if it is one value with blanks around it. Nothing is taken that the format does not know: no
trailing comma, no comment, no control character inside a string.
-/

namespace ImportClosure.Json

/-- Blanks between two tokens. -/
def isBlank (c : Char) : Bool :=
  c == ' ' || c == '\n' || c == '\t' || c == '\r'

/-- The text behind its leading blanks. -/
def skipBlanks (s : List Char) : List Char :=
  s.dropWhile isBlank

/-- A text behind a given word. -/
def afterWord? (word : String) (s : List Char) : Option (List Char) :=
  if word.toList.isPrefixOf s then some (s.drop word.toList.length) else none

/-- At least one digit, and what stands behind the digits. -/
def digits? (s : List Char) : Option (List Char × List Char) :=
  match s.takeWhile Char.isDigit with
  | [] => none
  | ds => some (ds, s.dropWhile Char.isDigit)

/-- The digits in front of the point: a zero stands alone. -/
def whole? : List Char → Option (List Char × List Char)
  | '0' :: rest => some (['0'], rest)
  | s => digits? s

/-- The point with the digits behind it, or nothing. -/
def fraction? : List Char → Option (List Char × List Char)
  | '.' :: rest => (digits? rest).map fun (ds, behind) => ('.' :: ds, behind)
  | s => some ([], s)

/-- The sign of an exponent, or nothing. -/
def exponentSign : List Char → List Char × List Char
  | '+' :: rest => (['+'], rest)
  | '-' :: rest => (['-'], rest)
  | s => ([], s)

/-- The exponent, or nothing. -/
def exponent? : List Char → Option (List Char × List Char)
  | [] => some ([], [])
  | e :: rest =>
    if e = 'e' ∨ e = 'E' then
      let (sign, rest) := exponentSign rest
      (digits? rest).map fun (ds, behind) => (e :: sign ++ ds, behind)
    else some ([], e :: rest)

/-- A number. -/
def number? (s : List Char) : Option (Json × List Char) := do
  let (sign, s) := match s with
    | '-' :: rest => (['-'], rest)
    | s => ([], s)
  let (whole, s) ← whole? s
  let (fraction, s) ← fraction? s
  let (exponent, s) ← exponent? s
  return (.number (String.ofList (sign ++ whole ++ fraction ++ exponent)), s)

/-- A value that is one word. -/
def word? (s : List Char) : Option (Json × List Char) :=
  match afterWord? "null" s, afterWord? "true" s, afterWord? "false" s with
  | some rest, _, _ => some (.null, rest)
  | _, some rest, _ => some (.bool true, rest)
  | _, _, some rest => some (.bool false, rest)
  | _, _, _ => number? s

mutual

/-- A value, of at most this nesting. -/
def value? : Nat → List Char → Option (Json × List Char)
  | 0, _ => none
  | fuel + 1, s =>
    match skipBlanks s with
    | '"' :: rest => (Quoted.toQuote rest).map fun (inside, behind) => (.string (String.ofList inside), behind)
    | '[' :: rest =>
      match skipBlanks rest with
      | ']' :: behind => some (.array [], behind)
      | rest => (items? fuel rest).map fun (items, behind) => (.array items, behind)
    | '\x7b' :: rest =>
      match skipBlanks rest with
      | '\x7d' :: behind => some (.object [], behind)
      | rest => (fields? fuel rest).map fun (fields, behind) => (.object fields, behind)
    | rest => word? rest

/-- The items of an array that has one, up to the closing bracket. -/
def items? : Nat → List Char → Option (List Json × List Char)
  | 0, _ => none
  | fuel + 1, s => do
    let (item, s) ← value? fuel s
    match skipBlanks s with
    | ',' :: rest => (items? fuel rest).map fun (more, behind) => (item :: more, behind)
    | ']' :: behind => some ([item], behind)
    | _ => none

/-- The fields of an object that has one, up to the closing brace. -/
def fields? : Nat → List Char → Option (List (String × Json) × List Char)
  | 0, _ => none
  | fuel + 1, s =>
    match skipBlanks s with
    | '"' :: rest => do
      let (key, rest) ← Quoted.toQuote rest
      match skipBlanks rest with
      | ':' :: rest => do
        let (value, rest) ← value? fuel rest
        let field := (String.ofList key, value)
        match skipBlanks rest with
        | ',' :: rest => (fields? fuel rest).map fun (more, behind) => (field :: more, behind)
        | '\x7d' :: behind => some ([field], behind)
        | _ => none
      | _ => none
    | _ => none

end

/-- The document of a text. Every step into a value takes a character, so the length of the text bounds them. -/
def read? (text : String) : Option Json := do
  let (j, rest) ← value? (2 * text.toList.length + 2) text.toList
  if (skipBlanks rest).isEmpty then some j else none

end ImportClosure.Json
