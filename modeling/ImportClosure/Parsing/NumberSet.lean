/-!
# Sets of numbers

Tokens and phrases are told apart by numbers. A set of them is kept as one number with a bit for each member.
-/

namespace ImportClosure.Parsing

/-- A set of numbers. -/
structure NumberSet where
  bits : Nat
  deriving DecidableEq, Hashable, Inhabited

namespace NumberSet

def empty : NumberSet := ⟨0⟩

def single (n : Nat) : NumberSet := ⟨1 <<< n⟩

def contains (s : NumberSet) (n : Nat) : Bool := s.bits.testBit n

def isEmpty (s : NumberSet) : Bool := s.bits == 0

def union (s t : NumberSet) : NumberSet := ⟨s.bits ||| t.bits⟩

def inter (s t : NumberSet) : NumberSet := ⟨s.bits &&& t.bits⟩

/-- The members of `s` that are not in `t`. -/
def diff (s t : NumberSet) : NumberSet := ⟨s.bits ^^^ (s.bits &&& t.bits)⟩

def insert (s : NumberSet) (n : Nat) : NumberSet := s.union (single n)

/-- Whether the sets have a member in common. -/
def meets (s t : NumberSet) : Bool := !(s.inter t).isEmpty

def ofList (numbers : List Nat) : NumberSet := numbers.foldl insert empty

/-- Puts the members of a bit pattern in front of a list, the lowest first. -/
def toListAux (bits : Nat) (acc : List Nat) : List Nat :=
  if bits = 0 then acc
  else toListAux (bits - Nat.pow 2 bits.log2) (bits.log2 :: acc)
termination_by bits
decreasing_by exact Nat.sub_lt (Nat.pos_of_ne_zero ‹_›) (Nat.two_pow_pos _)

/-- The members in ascending order. -/
def toList (s : NumberSet) : List Nat := toListAux s.bits []

end NumberSet

end ImportClosure.Parsing
