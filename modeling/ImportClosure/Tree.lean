import ImportClosure.Path

/-!
# File trees

A file tree is what a program can see of the disk: for each place the directory or file that stands there. There are no
links, so a place is the list of names on the way down from the root, and `locate` finds it by following a path step by
step: every step leaves a directory, and a parent step goes up.
-/

namespace ImportClosure

/-- Why a path could not be read. -/
inductive IoError where
  | notFound
  | notADirectory
  | isADirectory
  | notText
  | nameTooLong
  | nulInPath
  | stated (text : String)
  deriving DecidableEq

/-- The wording of a failure to read. -/
def IoError.message : IoError → String
  | notFound => "No such file or directory (os error 2)"
  | notADirectory => "Not a directory (os error 20)"
  | isADirectory => "Is a directory (os error 21)"
  | notText => "stream did not contain valid UTF-8"
  | nameTooLong => "File name too long (os error 36)"
  | nulInPath => "file name contained an unexpected NUL byte"
  | stated text => text

/-- What stands at a place: a directory, a file that is text, or a file whose text cannot be read. -/
inductive Content where
  | directory
  | text (s : String)
  | unreadable (cause : IoError)
  deriving DecidableEq

/-- A file of these bytes. -/
def Content.ofBytes (bytes : ByteArray) : Content :=
  match String.fromUTF8? bytes with
  | some s => text s
  | none => unreadable .notText

/-- The names on the way from the root to a file or directory. -/
abbrev Place := List String

/-- What can be seen of the disk, with the directory that relative paths start from. The root is a directory without
being listed. -/
structure FileTree where
  workDir : Path
  entries : List (Place × Content)

namespace FileTree

/-- A tree with nothing in it. -/
def empty (workDir : Path) : FileTree :=
  ⟨workDir, []⟩

/-- What stands at a place. -/
def content? (t : FileTree) (place : Place) : Option Content :=
  if place = [] then some .directory else t.entries.lookup place

/-- Puts something at a place where nothing stands yet. -/
def addNew (t : FileTree) (place : Place) (c : Content) : FileTree :=
  if (t.content? place).isSome then t else { t with entries := t.entries ++ [(place, c)] }

/-- The places of the directories above a place, outermost first, without the root. -/
def above (place : Place) : List Place :=
  (List.range (place.length - 1)).map fun n => place.take (n + 1)

/-- Puts something at a place, with the directories above it. -/
def add (t : FileTree) (place : Place) (c : Content) : FileTree :=
  ((above place).foldl (fun tree dir => tree.addNew dir .directory) t).addNew place c

/-- The longest name that a directory can hold, in bytes. -/
def maxNameSize : Nat := 255

/-- The longest path that can be followed, in bytes. -/
def maxPathSize : Nat := 4095

/-- Follows one field of a path from a place. -/
def follow (t : FileTree) (place : Place) (field : String) : Except IoError Place :=
  match t.content? place with
  | none => .error .notFound
  | some (.text _) | some (.unreadable _) => .error .notADirectory
  | some .directory =>
    if Path.isIdle field then .ok place
    else if field == ".." then .ok place.dropLast
    else if field.utf8ByteSize > maxNameSize then .error .nameTooLong
    else if (t.content? (place ++ [field])).isSome then .ok (place ++ [field])
    else .error .notFound

/-- The place that a path leads to, if something stands there. A path that ends in a slash leads to directories only.
What counts for the length of a path is how it is written. -/
def locate (t : FileTree) (p : Path) : Except IoError Place :=
  if p.text.toList.contains '\x00' then .error .nulInPath
  else if p.text == "" then .error .notFound
  else if p.text.utf8ByteSize > maxPathSize then .error .nameTooLong
  else if p.isAbsolute then p.fields.tail.foldlM t.follow []
  else (t.workDir.fields.tail ++ p.fields).foldlM t.follow []

/-- What stands at the end of a path. -/
def read? (t : FileTree) (p : Path) : Option Content :=
  match t.locate p with
  | .ok place => t.content? place
  | .error _ => none

/-- Whether something stands at the end of a path. -/
def exists? (t : FileTree) (p : Path) : Bool :=
  (t.read? p).isSome

/-- Whether a path leads to a directory. -/
def isDir (t : FileTree) (p : Path) : Bool :=
  t.read? p == some .directory

/-- Whether a path leads to a file. -/
def isFile (t : FileTree) (p : Path) : Bool :=
  match t.read? p with
  | some (.text _) | some (.unreadable _) => true
  | _ => false

/-- The text of a file. -/
def readText (t : FileTree) (p : Path) : Except IoError String := do
  match t.content? (← t.locate p) with
  | some (.text s) => .ok s
  | some (.unreadable cause) => .error cause
  | some .directory => .error .isADirectory
  | none => .error .notFound

/-- The names in the directory at a place. -/
def childNames (t : FileTree) (place : Place) : List String :=
  t.entries.filterMap fun entry =>
    if entry.1.dropLast = place && entry.1 ≠ [] then entry.1.getLast? else none

/-- The names in a directory, in order. -/
def list (t : FileTree) (p : Path) : Except IoError (List String) := do
  let place ← t.locate p
  match t.content? place with
  | some .directory => .ok ((t.childNames place).mergeSort fun a b => decide (a ≤ b))
  | some _ => .error .notADirectory
  | none => .error .notFound

/-- The number of files and directories in a tree. -/
def size (t : FileTree) : Nat :=
  t.entries.length

/-- The length of the longest way down from the root. -/
def depth (t : FileTree) : Nat :=
  (t.entries.map fun entry => entry.1.length).foldl max 0

end FileTree

end ImportClosure
