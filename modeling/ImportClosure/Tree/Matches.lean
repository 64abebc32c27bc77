import ImportClosure.Glob.FileGlob
import ImportClosure.Tree

/-!
# Files that match a pattern

A filename pattern is followed down the tree step by step. A step without wildcards is looked up and reads no directory;
any other step goes through the names of a directory in order. Two stars stay where they are for every directory below,
and what lies nearer comes first.
-/

namespace ImportClosure

/-- A filename pattern, read. -/
structure FilePattern where
  /-- Where following begins: the root, or the directory that relative paths start from. -/
  start : Path
  steps : List (List FileGlob.Part)
  /-- Only directories match, since the pattern ends in a slash. -/
  directoriesOnly : Bool

namespace FilePattern

/-- The texts between slashes; a slash at the end begins no text. -/
def stepTexts (text : String) : List String :=
  match (Text.fields '/' text).reverse with
  | "" :: front => front.reverse
  | _ => Text.fields '/' text

/-- Reads a pattern, as a whole first and then step by step. -/
def read (text : String) : Except FileGlob.Fault FilePattern := do
  let _ ← FileGlob.read text
  let absolute := Text.startsWith text "/"
  let relative := if absolute then String.ofList text.toList.tail else text
  let steps ← (stepTexts relative).mapM FileGlob.read
  .ok {
    start := if absolute then ⟨"/"⟩ else ⟨"."⟩
    steps := if relative == "" then [[]] else steps
    directoriesOnly := Text.endsWith text "/" }

end FilePattern

namespace FileTree

/-- A name in a directory; the directory that relative paths start from is not written. -/
def stepInto (dir : Path) (name : String) : Path :=
  if dir.components == [.here] then ⟨name⟩ else dir.child name

/-- Whether a step is two stars. -/
def isAnyDepth (step : List FileGlob.Part) : Bool :=
  FileGlob.isSteps step

/-- The directory itself and the one above it; they match only a step that begins with a dot. -/
def dotNames (step : List FileGlob.Part) : List String :=
  if step.head? == some (.char '.') then ["..", "."].filter fun name => FileGlob.fits step name.toList else []

/-- Whether a path is wanted once all steps are done. -/
def isWanted (t : FileTree) (p : FilePattern) (path : Path) : Bool :=
  !p.directoriesOnly || t.isDir path

mutual

/-- The paths below a directory that the remaining steps lead to. -/
def matchesBelow (t : FileTree) (p : FilePattern) : Nat → List (List FileGlob.Part) → Path → List Path
  | 0, _, _ => []
  | _ + 1, [], _ => []
  | fuel + 1, step :: more, dir =>
    match FileGlob.literal? step with
    | some name =>
      let next := stepInto dir name
      let reached := if name == "." || name == ".." then t.isDir dir else t.exists? next
      if reached then matchesAfter t p fuel more next else []
    | none =>
      if !t.isDir dir then []
      else
        (dotNames step).flatMap (fun name => matchesAfter t p fuel more (dir.child name)) ++
          ((t.list dir).toOption.getD []).flatMap fun name => matchesAt t p fuel (step :: more) (stepInto dir name)

/-- The paths that are reached when a step has led to a path. -/
def matchesAfter (t : FileTree) (p : FilePattern) : Nat → List (List FileGlob.Part) → Path → List Path
  | 0, _, _ => []
  | _ + 1, [], path => if t.isWanted p path then [path] else []
  | fuel + 1, step :: more, path => matchesBelow t p fuel (step :: more) path

/-- The paths that are reached from an entry of a directory, which the first step has yet to match. -/
def matchesAt (t : FileTree) (p : FilePattern) : Nat → List (List FileGlob.Part) → Path → List Path
  | 0, _, _ => []
  | _ + 1, [], _ => []
  | fuel + 1, step :: more, path =>
    if isAnyDepth step then
      let rest := more.dropWhile isAnyDepth
      let here :=
        if rest.isEmpty then (if t.isDir path then [path] else []) else matchesAt t p fuel rest path
      here ++ if t.isDir path then matchesBelow t p fuel (step :: rest) path else []
    else if (path.fileName.map String.toList).any (FileGlob.fits step) then matchesAfter t p fuel more path
    else []

end

/-- The paths that match a pattern, in the order in which following meets them. Between two steps of the pattern the way
goes down at most to the depth of the tree. -/
def matching (t : FileTree) (p : FilePattern) : List Path :=
  t.matchesBelow p (4 * (p.steps.length + 1) * (t.depth + 2)) p.steps p.start

end FileTree

end ImportClosure
