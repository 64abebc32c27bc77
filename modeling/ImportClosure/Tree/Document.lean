import ImportClosure.Json.Read
import ImportClosure.Tree

/-!
# File trees as documents

A file tree written as an object: the work directory and its files by their paths below it. A text is a file with that
content, `null` is an empty directory, and everything else a file that holds no text.
-/

namespace ImportClosure.FileTree

/-- The content that a value describes. -/
def contentOfJson : Json → Content
  | .null => .directory
  | .string written =>
    match Quoted.decode? written with
    | some text => .text text
    | none => .unreadable .notText
  | _ => .unreadable .notText

/-- The place of a path from the root. -/
def placeOf (path : Path) : Place :=
  path.fields.filter fun field => !Path.isIdle field

/-- Adds a file by its path below a directory. -/
def addFile (dir : Path) (t : FileTree) (file : String × Json) : Option FileTree := do
  let path : Path := ⟨← Quoted.decode? file.1⟩
  return t.add (placeOf (dir.join path)) (contentOfJson file.2)

/-- The file tree that a document describes. -/
def ofJson? : Json → Option FileTree
  | .object fields => do
    match fields.lookup "work_dir", fields.lookup "files" with
    | some (Json.string written), some (Json.object files) =>
      let workDir : Path := ⟨← Quoted.decode? written⟩
      let start := (FileTree.empty workDir).add (placeOf workDir) .directory
      files.foldlM (addFile workDir) start
    | _, _ => none
  | _ => none

end ImportClosure.FileTree
