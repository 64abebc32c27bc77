import ImportClosure.Builder
import ImportClosure.Python.ImportList
import ImportClosure.SearchPath

/-!
# Builders from sources

A builder that reads modules from a file tree. A package is built from its init entry, a namespace package from its bare
directory, and of everything else only sources are read. A module that has been built is not read again.
-/

namespace ImportClosure

/-- The record that a request asks for, and the source to read for it. -/
def BuildRequest.target (r : BuildRequest) (t : FileTree) : ModuleRecord × Option Path :=
  let record : ModuleRecord := { name := r.name, file := r.file, kind := r.kind, isTop := r.isTop }
  let path := r.file.path
  if t.isDir path then
    if t.hasInitEntry path then
      let init := path.child initEntry
      ({ record with file := .ofPath t.workDir init, isPackage := true }, some init)
    else ({ record with isPackage := true }, none)
  else if r.file.isInitEntry then ({ record with isPackage := true }, some path)
  else (record, if r.kind = .source then some path else none)

/-- The import edges of a source. -/
def SearchPath.scan (s : SearchPath) (t : FileTree) (record : ModuleRecord) (text : String) :
    Except Nat (List ImportEdge) := do
  .ok ((← Python.readImports text).flatMap (s.resolve t record))

/-- Reads the imports of a source: its edges, or nothing if it was passed over. -/
def SearchPath.readSource (s : SearchPath) (t : FileTree) (record : ModuleRecord) (path : Path) (hidden : Bool) :
    Except Error (Option (List ImportEdge)) × List BuildNote :=
  match t.readText path with
  | .error cause => if hidden then (.ok none, [.unreadable path cause]) else (.error (.io cause), [])
  | .ok text =>
    match s.scan t record text with
    | .error line =>
      if hidden then (.ok none, [.malformed path line]) else (.error (.badSource path (.atLine line)), [])
    | .ok edges => (.ok (some edges), [])

/-- The builder over a file tree. It remembers what it has built, newest first. -/
def Builder.ofSources (s : SearchPath) (t : FileTree) : Builder (List Identity) where
  build r built :=
    let (record, source) := r.target t
    if built.contains record.identity then ({ result := .ok (some ⟨record, [], false⟩) }, built)
    else
      match source with
      | none => ({ result := .ok (some ⟨record, [], true⟩) }, record.identity :: built)
      | some path =>
        match s.readSource t record path r.hideSyntaxError with
        | (.error err, notes) => ({ result := .error err, notes }, built)
        | (.ok none, notes) => ({ result := .ok none, notes }, built)
        | (.ok (some edges), notes) =>
          ({ result := .ok (some ⟨record, edges, true⟩), notes }, record.identity :: built)

end ImportClosure
