import ImportClosure.Toml.Number
import ImportClosure.Toml.Value

/-!
# TOML documents

A document is a list of sections, and the table that they make up. `sections?` reads the text, `assemble?` puts the
sections together: a header may come once, and an array is either written as a value or by headers.
-/

namespace ImportClosure.Toml

namespace Reader

/-! ## Strings -/

/-- A character that may stand in a string as it is. -/
def isPlain (c : Char) : Bool :=
  c == '\t' || (' ' ≤ c && c != '\x7f')

/-- Reads the hexadecimal digits of a character. -/
def codePoint (length : Nat) : Reader Char := do
  let digits := (← get).take length
  guard (digits.length == length && digits.all (isDigitOf 16))
  set ((← get).drop length)
  let code := ofDigits 16 digits
  guard (code < 0xD800 || (0xE000 ≤ code && code < 0x110000))
  return Char.ofNat code

/-- Reads what follows a backslash. In a long string it may join lines. -/
def escape (isLong : Bool) : Reader (List Char) := do
  match ← get with
  | [] => failure
  | c :: rest =>
    set rest
    match c with
    | '"' | '\\' => return [c]
    | 'b' => return ['\x08']
    | 'f' => return ['\x0c']
    | 'n' => return ['\n']
    | 'r' => return ['\r']
    | 't' => return ['\t']
    | 'u' => return [← codePoint 4]
    | 'U' => return [← codePoint 8]
    | _ =>
      guard (isLong && (c == ' ' || c == '\t' || c == '\n'))
      if c ≠ '\n' then
        blanks
        char '\n'
      let _ ← takeWhile fun c => c == ' ' || c == '\t' || c == '\n'
      return []

/-- Reads the next piece of a string, and tells whether it ends the string. A long string ends at three quotes; up to
two more before them belong to it. -/
def stringPiece (quote : Char) (isLong : Bool) : Reader (List Char × Bool) := do
  match ← get with
  | [] => failure
  | c :: rest =>
    set rest
    if c = '\n' then
      guard isLong
      return (['\n'], false)
    else if c = quote then
      if isLong then
        let more := ((rest.take 4).takeWhile (· == quote)).length
        set (rest.drop more)
        if more < 2 then return (List.replicate (more + 1) quote, false)
        else return (List.replicate (more - 2) quote, true)
      else return ([], true)
    else if c = '\\' ∧ quote = '"' then return (← escape isLong, false)
    else
      guard (isPlain c)
      return ([c], false)

/-- Reads the pieces of a string up to its end. -/
def stringPieces (quote : Char) (isLong : Bool) : Nat → Reader (List Char)
  | 0 => failure
  | n + 1 => do
    let (piece, isEnd) ← stringPiece quote isLong
    if isEnd then return piece
    else return piece ++ (← stringPieces quote isLong n)

/-- Reads a string, and tells whether it is a long one. A long string does not begin with a line break. -/
def string (quote : Char) : Reader (String × Bool) := do
  char quote
  let rest ← get
  if [quote, quote].isPrefixOf rest then
    set (rest.drop 2)
    let _ ← char? '\n'
    return (String.ofList (← stringPieces quote true rest.length), true)
  else return (String.ofList (← stringPieces quote false (rest.length + 1)), false)

/-! ## Keys -/

/-- Reads one key: a bare word or a short string. -/
def key : Reader String := do
  match ← get with
  | c :: _ =>
    if c = '"' ∨ c = '\'' then
      let (text, isLong) ← string c
      guard !isLong
      return text
    else return String.ofList (← word)
  | [] => failure

/-- Reads keys with dots between them and blanks around them. -/
def keys : Nat → Reader (List String)
  | 0 => failure
  | n + 1 => do
    blanks
    let first ← key
    blanks
    if ← char? '.' then return first :: (← keys n) else return [first]

/-- Reads a dotted key. -/
def dottedKey : Reader (List String) := fun text => keys text.length text

/-! ## Values -/

/-- Reads a value that begins with a bare word. -/
def wordValue : Reader Value := do
  let first ← word
  match String.ofList first with
  | "true" => return .boolean true
  | "false" => return .boolean false
  | "inf" | "nan" =>
    return .number (String.ofList first ++ (← written (numberFrom first)))
  | _ =>
    guard (first.head?.any fun c => c == '-' || c.isDigit)
    if isDate first then return .time (String.ofList first ++ (← written (timeFrom false)))
    else if ← char? ':' then return .time (String.ofList first ++ ":" ++ (← written (timeFrom true)))
    else return .number (String.ofList first ++ (← written (numberFrom first)))

/-- Reads the items of an array behind its bracket. A comma may stand behind the last one. -/
def arrayItems (value : Reader Value) : Nat → Reader (List Value)
  | 0 => failure
  | n + 1 => do
    gaps
    if ← char? ']' then return []
    let first ← value
    gaps
    if ← char? ',' then return first :: (← arrayItems value n)
    char ']'
    return [first]

/-- Reads a key with its value, and adds it to the entries before it. -/
def entry (value : Reader Value) (entries : Entries) : Reader Entries := do
  let path ← dottedKey
  char '='
  blanks
  let value ← value
  blanks
  Entries.add value path entries

/-- Reads the entries of a table behind its brace, all on one line. -/
def tableEntries (value : Reader Value) : Nat → Entries → Reader Entries
  | 0, _ => failure
  | n + 1, entries => do
    let entries ← entry value entries
    if ← char? '\x7d' then return entries
    char ','
    blanks
    tableEntries value n entries

/-- Reads a value that is nested a number of times at most. -/
def value : Nat → Reader Value
  | 0 => failure
  | n + 1 => do
    let text ← get
    match text with
    | '"' :: _ => return .string (← string '"').1
    | '\'' :: _ => return .string (← string '\'').1
    | '[' :: rest =>
      set rest
      return .array (← arrayItems (value n) text.length)
    | '\x7b' :: rest =>
      set rest
      blanks
      if ← char? '\x7d' then return .table .inline []
      else return .table .inline (← tableEntries (value n) text.length [])
    | '+' :: rest =>
      set rest
      let first ← word
      return .number ("+" ++ String.ofList first ++ (← written (numberFrom first)))
    | _ => wordValue

/-! ## Sections -/

/-- Reads the header of a section. -/
def header : Reader Section := do
  char '['
  let isItem ← char? '['
  let path ← dottedKey
  char ']'
  if isItem then char ']'
  blanks
  lineEnd
  return { header := path, isItem }

/-- Reads the rest of a section and the sections behind it. -/
def sections (value : Reader Value) : Nat → Section → Reader (List Section)
  | 0, _ => failure
  | n + 1, current => do
    gaps
    match ← get with
    | [] => return [current]
    | '[' :: _ => return current :: (← sections value n (← header))
    | _ =>
      let entries ← entry value current.entries
      lineEnd
      sections value n { current with entries }

end Reader

/-- The sections of a text. -/
def sections? (text : List Char) : Option (List Section) :=
  let text := dropMark (foldBreaks text)
  ((Reader.sections (Reader.value text.length) (text.length + 1) {}).run text).map Prod.fst

/-! ## Assembly -/

/-- Sections with the first key of their headers taken away, for those that begin with a key, and the sections that do
not begin with it. -/
def splitByKey (key : String) : List Section → List Section × List Section
  | [] => ([], [])
  | s :: more =>
    let (inside, outside) := splitByKey key more
    match s.header with
    | first :: rest => if first == key then ({ s with header := rest } :: inside, outside) else (inside, s :: outside)
    | [] => (inside, s :: outside)

/-- Cuts sections at those that begin an item: what stands before the first, and each item with what follows it. -/
def splitItems : List Section → List Section × List (Section × List Section)
  | [] => ([], [])
  | s :: more =>
    let (inside, items) := splitItems more
    if s.header.isEmpty && s.isItem then ([], (s, inside) :: items) else (s :: inside, items)

/-- The entries that sections make up. `isOwned` says whether the table had a header already; no second one may follow
it. Sections under one key are put together where the first of them stands: if that is an item of an array, all of them
make up the array. -/
def assembleTable? : Nat → (isOwned : Bool) → List Section → Option Entries
  | 0, _, _ => none
  | _ + 1, _, [] => some []
  | n + 1, isOwned, s :: more =>
    match s.header with
    | [] =>
      if isOwned || s.isItem then none
      else do return s.entries ++ (← assembleTable? n true more)
    | key :: _ => do
      let (inside, outside) := splitByKey key (s :: more)
      let value ←
        match splitItems inside with
        | ([], items) =>
          (items.mapM fun (item : Section × List Section) => do
            return Value.table .headed (item.1.entries ++ (← assembleTable? n true item.2))).map Value.array
        | _ => (assembleTable? n false inside).map (Value.table .headed)
      return (key, value) :: (← assembleTable? n isOwned outside)

/-- How many steps the assembly of sections takes at most. -/
def assemblySteps (sections : List Section) : Nat :=
  sections.foldl (fun steps s => steps + s.header.length + 1) 1

/-- The table that sections make up. -/
def assemble? (sections : List Section) : Option Value :=
  (assembleTable? (assemblySteps sections) false sections).map (Value.table .headed)

/-- Reads a document. -/
def read? (text : String) : Option Value :=
  (sections? text.toList).bind assemble?

end ImportClosure.Toml
