import ImportClosure.Text.Fields

/-!
# Globs over file names

One step of a filename pattern: `?` takes a character, `*` any number of them, brackets one of a class, and `**`, alone
between two slashes, any number of directories. A pattern is checked as a whole first and then step by step, so that a
class that holds a slash is refused by its first half.
-/

namespace ImportClosure.FileGlob

/-- What is wrong at a position of a pattern. -/
inductive FaultKind where
  | wildcards
  | recursiveWildcards
  | invalidRange
  deriving DecidableEq

/-- Why a text is no pattern, and at which character. -/
structure Fault where
  position : Nat
  kind : FaultKind
  deriving DecidableEq

/-- The wording of a fault; the backquotes are part of it. -/
def Fault.message (f : Fault) : String :=
  "Pattern syntax error near position " ++ Text.decimal f.position ++ ": " ++
    match f.kind with
    | .wildcards => "wildcards are either regular \x60*\x60 or recursive \x60**\x60"
    | .recursiveWildcards => "recursive wildcards must form a single path component"
    | .invalidRange => "invalid range pattern"

/-- A part of a pattern. -/
inductive Part where
  | char (c : Char)
  | anyChar
  | anyText
  | anySteps
  | within (ranges : List (Char × Char))
  | except (ranges : List (Char × Char))
  deriving DecidableEq

/-- The ranges between brackets: a character with a dash and another behind it begins one. -/
def ranges : List Char → List (Char × Char)
  | low :: '-' :: high :: rest => (low, high) :: ranges rest
  | c :: rest => (c, c) :: ranges rest
  | [] => []

/-- What stands in front of the first closing bracket, and what behind it. -/
def toBracket (cs : List Char) : Option (List Char × List Char) :=
  match cs.dropWhile (· != ']') with
  | [] => none
  | _ :: rest => some (cs.takeWhile (· != ']'), rest)

/-- Reads a class behind its opening bracket. Its first character stands for itself, also if it is a bracket. -/
def readClass : List Char → Option (Part × List Char)
  | '!' :: first :: cs => (toBracket cs).map fun (inside, rest) => (.except (ranges (first :: inside)), rest)
  | '!' :: _ => none
  | first :: cs => (toBracket cs).map fun (inside, rest) => (.within (ranges (first :: inside)), rest)
  | [] => none

/-- Reads the parts of a pattern of `size` characters, of which these are left. `front` is the character in front of
them; the parts read so far are kept last first. A pattern has at most `fuel` parts. -/
def readParts (size : Nat) : Nat → Option Char → List Part → List Char → Except Fault (List Part)
  | 0, _, parts, _ => .ok parts.reverse
  | _ + 1, _, parts, [] => .ok parts.reverse
  | fuel + 1, front, parts, c :: cs =>
    let position := size - (cs.length + 1)
    match c with
    | '?' => readParts size fuel (some c) (.anyChar :: parts) cs
    | '*' =>
      match cs.takeWhile (· == '*'), cs.dropWhile (· == '*') with
      | [], rest => readParts size fuel (some '*') (.anyText :: parts) rest
      | [_], rest =>
        if front == none || front == some '/' then
          let parts := if 1 < parts.length && parts.head? == some .anySteps then parts else .anySteps :: parts
          match rest with
          | [] => .ok parts.reverse
          | '/' :: rest => readParts size fuel (some '/') parts rest
          | _ => .error ⟨position + 2, .recursiveWildcards⟩
        else .error ⟨position - 1, .recursiveWildcards⟩
      | _, _ => .error ⟨position + 2, .wildcards⟩
    | '[' =>
      match readClass cs with
      | some (part, rest) => readParts size fuel (some ']') (part :: parts) rest
      | none => .error ⟨position, .invalidRange⟩
    | c => readParts size fuel (some c) (.char c :: parts) cs

/-- The parts of a pattern. -/
def read (text : String) : Except Fault (List Part) :=
  readParts text.toList.length text.toList.length none [] text.toList

/-- Whether a character lies in one of the ranges. -/
def inRanges (rs : List (Char × Char)) (c : Char) : Bool :=
  rs.any fun r => r.1 ≤ c && c ≤ r.2

/-- Whether a part takes a character. -/
def Part.takes : Part → Char → Bool
  | char d, c => c == d
  | anyChar, _ => true
  | within rs, c => inRanges rs c
  | except rs, c => !inRanges rs c
  | anyText, _ | anySteps, _ => true

/-- Whether a test holds of some tail of a text. -/
def someTail (test : List Char → Bool) : List Char → Bool
  | [] => test []
  | c :: rest => test (c :: rest) || someTail test rest

/-- Whether parts take a text from its first character to its last. -/
def fits : List Part → List Char → Bool
  | [], s => s.isEmpty
  | .anyText :: more, s => someTail (fits more) s
  | .anySteps :: more, s => someTail (fits more) s
  | p :: more, s =>
    match s with
    | [] => false
    | c :: rest => p.takes c && fits more rest

/-- The text of parts that are all characters. -/
def literal? (parts : List Part) : Option String :=
  (parts.mapM fun
    | Part.char c => some c
    | _ => none).map String.ofList

/-- Whether these parts are the two stars that take any number of directories. -/
def isSteps (parts : List Part) : Bool :=
  parts.contains .anySteps

end ImportClosure.FileGlob
