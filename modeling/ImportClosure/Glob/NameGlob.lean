import ImportClosure.Glob.Shape

/-!
# Globs over module names

A glob is read one character at a time by `step`, over a state that holds the groups still open. `*` and `?` take any
character, dots and slashes too; `**` as a whole step between slashes takes any number of steps; brackets hold a class,
braces hold alternatives, and a backslash takes the next character as it is.

Reading is a fold, so the state after one text followed by another is the state after the second begun in the state
after the first.
-/

namespace ImportClosure.NameGlob

/-- Why a text is no glob. -/
inductive Fault where
  | unclosedClass
  | invalidRange (low high : Char)
  | unopenedGroup
  | unclosedGroup
  | danglingEscape
  deriving DecidableEq

/-- The wording of a fault. -/
def Fault.message : Fault → String
  | unclosedClass => "unclosed character class; missing ']'"
  | invalidRange low high => "invalid range; '" ++ low.toString ++ "' > '" ++ high.toString ++ "'"
  | unopenedGroup => "unopened alternate group; missing '\x7b' (maybe escape '\x7d' with '[\x7d]'?)"
  | unclosedGroup => "unclosed alternate group; missing '\x7d' (maybe escape '\x7b' with '[\x7b]'?)"
  | danglingEscape => "dangling '\\'"

/-- A part of a glob. -/
inductive Part where
  | char (c : Char)
  | anyChar
  | anyText
  /-- Two stars before the first slash, with that slash. -/
  | stepsFirst
  /-- Two stars after the last slash, with that slash. -/
  | stepsLast
  /-- Two stars between slashes, with both. -/
  | stepsBetween
  | charClass (negated : Bool) (ranges : List ByteRange)
  | group (shape : Shape)

/-- The shape of a slash. -/
def slash : Shape :=
  .char '/'

/-- What a part takes. -/
def Part.shape : Part → Shape
  | char c => .char c
  | anyChar => .anyByte
  | anyText => .anyText
  | stepsFirst => .any [.nothing, slash, .before .anyText slash]
  | stepsLast => .before slash .anyText
  | stepsBetween => .either slash (.all [slash, .anyText, slash])
  | charClass false ranges => .oneOf ranges
  | charClass true ranges => .noneOf ranges
  | group s => s

/-- What parts take one after the other; they are kept last first. -/
def shapeOf (parts : List Part) : Shape :=
  .all (parts.reverse.map Part.shape)

/-- The bytes that a range of characters stands for. Of a character of several bytes only the byte next to the dash
takes part in the range, the others stand for themselves. -/
def byteRanges (low high : Char) : List ByteRange :=
  let single (b : UInt8) : ByteRange := ⟨b, b⟩
  if low = high then (String.utf8EncodeChar low).map single
  else
    match (String.utf8EncodeChar low).reverse, String.utf8EncodeChar high with
    | last :: front, first :: rest => front.map single ++ ⟨last, first⟩ :: rest.map single
    | _, _ => []

/-- A class that is being read. -/
structure OpenClass where
  negated : Bool
  /-- Nothing has been read yet, so that a bracket or dash stands for itself. -/
  first : Bool
  /-- A dash has been read that may begin the second half of a range. -/
  dash : Bool
  /-- The ranges read so far, last first. -/
  ranges : List (Char × Char)

/-- Where the reader is. -/
inductive Mode where
  | plain
  | escaped
  /-- After one star, with the character in front of it. -/
  | star (front : Option Char)
  /-- After two stars, with the character in front of them. -/
  | stars (front : Option Char)
  | classStart
  | inClass (c : OpenClass)

/-- A group that is being read: the branches before the last, and the parts in front of the group, all last first. -/
structure OpenGroup where
  branches : List (List Part)
  outside : List Part

/-- What has been read of a glob. -/
structure State where
  mode : Mode
  /-- The last character. -/
  front : Option Char
  /-- The parts of the branch that is being read, last first. -/
  parts : List Part
  /-- The groups still open, innermost first. -/
  groups : List OpenGroup

/-- Before the first character. -/
def State.start : State :=
  ⟨.plain, none, [], []⟩

namespace State

/-- Adds a part to the branch that is being read. -/
def push (s : State) (p : Part) : State :=
  { s with parts := p :: s.parts }

/-- Ends a group. Branches that take nothing do not count. -/
def closeGroup (s : State) : Except Fault State :=
  match s.groups with
  | [] => .error .unopenedGroup
  | g :: outer =>
    let shapes := (s.parts :: g.branches).reverse.map shapeOf
    .ok { s with parts := .group (.any (shapes.filter fun shape => !shape.isNothing)) :: g.outside, groups := outer }

/-- Reads a character that neither a class nor a star claims. -/
def stepPlain (s : State) (c : Char) : Except Fault State :=
  let s' := { s with mode := .plain, front := some c }
  match c with
  | '?' => .ok (s'.push .anyChar)
  | '*' => .ok { s' with mode := .star s.front }
  | '[' => .ok { s' with mode := .classStart }
  | '\x7b' => .ok { s' with parts := [], groups := ⟨[], s.parts⟩ :: s.groups }
  | '\x7d' => s'.closeGroup
  | ',' =>
    match s.groups with
    | [] => .ok (s'.push (.char ','))
    | g :: outer => .ok { s' with parts := [], groups := { g with branches := s.parts :: g.branches } :: outer }
  | '\\' => .ok { s' with mode := .escaped }
  | c => .ok (s'.push (.char c))

/-- Two stars that are no step of their own take what one star takes. -/
def pushStars (s : State) : State :=
  (s.push .anyText).push .anyText

/-- Puts two stars in place of the slash in front of them; two such parts in a row are one. -/
def pushSteps (s : State) (p : Part) : State :=
  match s.parts with
  | .stepsFirst :: _ | .stepsLast :: _ => s
  | parts => { s with parts := p :: parts.tail }

/-- Whether two stars with this character in front begin a step. -/
def stepBegins (s : State) (front : Option Char) : Bool :=
  front == some '/' || (!s.groups.isEmpty && (front == some ',' || front == some '\x7b'))

/-- Reads the character after two stars. -/
def stepStars (s : State) (front : Option Char) (c : Char) : Except Fault State :=
  if s.parts.isEmpty then
    if c == '/' then .ok { s.push .stepsFirst with mode := .plain, front := some c } else s.pushStars.stepPlain c
  else if !s.stepBegins front then s.pushStars.stepPlain c
  else if c == '/' then .ok { s.pushSteps .stepsBetween with mode := .plain, front := some c }
  else if (c == ',' || c == '\x7d') && !s.groups.isEmpty then (s.pushSteps .stepsLast).stepPlain c
  else s.pushStars.stepPlain c

/-- Reads a character of a class. -/
def stepClass (s : State) (k : OpenClass) (c : Char) : Except Fault State :=
  let next (k' : OpenClass) : Except Fault State :=
    .ok { s with mode := .inClass { k' with first := false }, front := some c }
  let single : OpenClass := { k with ranges := (c, c) :: k.ranges }
  if c == ']' && !k.first then
    let ranges := if k.dash then ('-', '-') :: k.ranges else k.ranges
    let bytes := ranges.reverse.flatMap fun r => byteRanges r.1 r.2
    .ok { s.push (.charClass k.negated bytes) with mode := .plain, front := some c }
  else if k.dash then
    match k.ranges with
    | [] => next { single with dash := false }
    | (low, _) :: more =>
      if c < low then .error (.invalidRange low c) else next { k with dash := false, ranges := (low, c) :: more }
  else if c == '-' && !k.first then next { k with dash := true }
  else next single

/-- Reads one character. -/
def step (s : State) (c : Char) : Except Fault State :=
  match s.mode with
  | .plain => s.stepPlain c
  | .escaped => .ok { s.push (.char c) with mode := .plain, front := some c }
  | .star front =>
    if c == '*' then .ok { s with mode := .stars front, front := some c } else (s.push .anyText).stepPlain c
  | .stars front => s.stepStars front c
  | .classStart =>
    if c == '!' || c == '^' then .ok { s with mode := .inClass ⟨true, true, false, []⟩, front := some c }
    else s.stepClass ⟨false, true, false, []⟩ c
  | .inClass k => s.stepClass k c

/-- Ends the glob: the parts, last first. -/
def finish (s : State) : Except Fault (List Part) := do
  let s ← match s.mode with
    | .plain => pure s
    | .escaped => .error .danglingEscape
    | .star _ => pure (s.push .anyText)
    | .stars front =>
      if s.parts.isEmpty then pure (s.push .stepsFirst)
      else if s.stepBegins front then pure (s.pushSteps .stepsLast)
      else pure s.pushStars
    | .classStart | .inClass _ => .error .unclosedClass
  if s.groups.isEmpty then pure s.parts else .error .unclosedGroup

end State

/-- What a glob takes. A glob that is only two stars takes every text. -/
def read (text : String) : Except Fault Shape := do
  match ← (← text.toList.foldlM State.step State.start).finish with
  | [.stepsFirst] => .ok .anyText
  | parts => .ok (shapeOf parts)

end ImportClosure.NameGlob
