/-!
# Shapes of text

A shape is what a pattern says of the bytes of a name: single bytes, runs of any bytes, one thing after another, one
thing or another. `rests` reads a shape off the front of a text in every possible way; a text has a shape if one of
these ways leaves nothing.
-/

namespace ImportClosure

/-- Bytes from the first to the last of a range. -/
structure ByteRange where
  low : UInt8
  high : UInt8
  deriving DecidableEq

/-- What a text of bytes may look like. -/
inductive Shape where
  /-- No byte at all. -/
  | nothing
  /-- One byte, whichever. -/
  | anyByte
  /-- Any run of bytes. -/
  | anyText
  /-- One byte of one of these ranges. -/
  | oneOf (ranges : List ByteRange)
  /-- One byte of none of these ranges. -/
  | noneOf (ranges : List ByteRange)
  | before (first second : Shape)
  | either (first second : Shape)

namespace Shape

/-- One given byte. -/
def byte (b : UInt8) : Shape :=
  oneOf [⟨b, b⟩]

/-- Shapes one after the other. -/
def all : List Shape → Shape
  | [] => nothing
  | [s] => s
  | s :: more => before s (all more)

/-- One shape of several; nothing if there are none. -/
def any : List Shape → Shape
  | [] => nothing
  | [s] => s
  | s :: more => either s (any more)

/-- The bytes of a character. -/
def char (c : Char) : Shape :=
  all ((String.utf8EncodeChar c).map byte)

/-- Whether a shape was put together from nothing. -/
def isNothing : Shape → Bool
  | nothing => true
  | before s t => s.isNothing && t.isNothing
  | _ => false

/-- Whether a byte lies in one of the ranges. -/
def inRanges (ranges : List ByteRange) (b : UInt8) : Bool :=
  ranges.any fun r => r.low ≤ b && b ≤ r.high

/-- What is left of a text after its first byte, if that byte will do. -/
def afterByte (fits : UInt8 → Bool) : List UInt8 → List (List UInt8)
  | [] => []
  | b :: rest => if fits b then [rest] else []

/-- What is left of a text after any number of its first bytes. -/
def tails : List UInt8 → List (List UInt8)
  | [] => [[]]
  | b :: rest => (b :: rest) :: tails rest

/-- What may be left of a text after a shape has been read off its front, each remainder once. -/
def rests : Shape → List UInt8 → List (List UInt8)
  | nothing, s => [s]
  | anyByte, s => afterByte (fun _ => true) s
  | anyText, s => tails s
  | oneOf ranges, s => afterByte (inRanges ranges) s
  | noneOf ranges, s => afterByte (fun b => !inRanges ranges b) s
  | before first second, s => ((rests first s).flatMap (rests second)).eraseDups
  | either first second, s => (rests first s ++ rests second s).eraseDups

/-- Whether a text has a shape from its first byte to its last. -/
def fits (shape : Shape) (s : String) : Bool :=
  (shape.rests s.toUTF8.toList).contains []

end Shape

end ImportClosure
