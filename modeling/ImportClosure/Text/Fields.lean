/-!
# Fields of a text

A separator character cuts a text into fields: dotted names into components, paths into the names between slashes.
There is always one field more than there are separators, and `join_split` puts the text together again.
-/

namespace ImportClosure.Text

/-- The pieces of a text between the occurrences of a separator. -/
def split (sep : Char) : List Char → List (List Char)
  | [] => [[]]
  | c :: rest =>
    if c = sep then [] :: split sep rest
    else match split sep rest with
      | [] => [[c]]
      | first :: more => (c :: first) :: more

/-- The fields written one after the other with a separator between two neighbours. -/
def join (sep : Char) : List (List Char) → List Char
  | [] => []
  | [field] => field
  | field :: next :: more => field ++ sep :: join sep (next :: more)

/-- A text has at least one field. -/
theorem split_ne_nil (sep : Char) (s : List Char) : split sep s ≠ [] := by
  cases s with
  | nil => simp [split]
  | cons c rest =>
    unfold split
    split
    · simp
    · split <;> simp

/-- A character put in front of the first field is put in front of the joined text. -/
theorem join_cons_head (sep c : Char) (first : List Char) (more : List (List Char)) :
    join sep ((c :: first) :: more) = c :: join sep (first :: more) := by
  cases more <;> simp [join]

/-- Cutting and joining at the same character gives the text back. -/
@[simp] theorem join_split (sep : Char) (s : List Char) : join sep (split sep s) = s := by
  induction s with
  | nil => rfl
  | cons c rest ih =>
    unfold split
    split
    next h =>
      subst h
      match hs : split c rest with
      | [] => exact absurd hs (split_ne_nil c rest)
      | first :: more => rw [hs] at ih; simp [join, ih]
    next h =>
      match hs : split sep rest with
      | [] => exact absurd hs (split_ne_nil sep rest)
      | first :: more => rw [hs] at ih; simp [join_cons_head, ih]

/-- The fields of a string. -/
def fields (sep : Char) (s : String) : List String :=
  (split sep s.toList).map String.ofList

/-- The string whose fields these are, when no field holds the separator. -/
def unfields (sep : Char) (parts : List String) : String :=
  String.ofList (join sep (parts.map String.toList))

/-- Whether a string begins with another. -/
def startsWith (s start : String) : Bool :=
  start.toList.isPrefixOf s.toList

/-- Whether a string ends with another. -/
def endsWith (s stop : String) : Bool :=
  stop.toList.isSuffixOf s.toList

/-- The decimal digits of a number. -/
def decimal (n : Nat) : String :=
  String.ofList (Nat.toDigits 10 n)

end ImportClosure.Text
