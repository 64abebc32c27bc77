import ImportClosure.Proofs.Builders
import ImportClosure.Proofs.Recursion
import ImportClosure.Proofs.Resolved
import ImportClosure.Session.History

/-!
# The entry of a package

In package mode the entry is given the package that it runs in when it is accepted, and its record keeps it. Over sources
its imports have been resolved by then, for the record that the builder made, which lies in no package: absolute imports
come out as they do for the entry, but no relative import finds anything (`pending_of_packageMode`). So the package is not
what the relative imports of the entry start from, although they could be resolved from there
(`Engine.packaged_pending_ne`).
-/

namespace ImportClosure

open Step

namespace SearchPath

variable {t : FileTree} {importer importer' : ModuleRecord} {i : ImportStatement}

/-- An edge to nothing, for a relative import that starts from no package. -/
def lost (importer : ModuleRecord) (i : ImportStatement) : ImportEdge :=
  .notFound ⟨String.ofList (List.replicate i.level '.') ++ i.path⟩ i.level ⟨importer.file.path, i.line⟩

/-- Absolute imports do not depend on the package of the importer. -/
theorem resolve_of_absolute (s : SearchPath) (hf : importer.file = importer'.file) (hi : i.level = 0) :
    s.resolve t importer i = s.resolve t importer' i := by
  simp [resolve, hi, hf]

/-- A module outside of all packages has no relative imports that are found. -/
theorem resolve_of_homeless (s : SearchPath) (hh : homePackage? importer = none) (hi : i.level ≠ 0) :
    s.resolve t importer i = [lost importer i] := by
  have hbase : relativeBase? importer i = none := by simp [relativeBase?, hh]
  simp [resolve, hi, resolveRelative, hbase, lost]

end SearchPath

namespace Engine

variable {e : Engine (List Identity)} {search : SearchPath} {path : Path}

/-- The entry is a source that is no package: neither a directory nor an init entry. -/
structure IsPlainEntry (e : Engine (List Identity)) (path : Path) : Prop where
  source : (e.entryBuild path).kind = .source
  notDir : e.tree.isDir (e.entryBuild path).file.path = false
  notInit : (e.entryBuild path).file.isInitEntry = false

/-- What the builder makes the record of such an entry from. -/
theorem IsPlainEntry.target_eq (h : e.IsPlainEntry path) : (e.entryBuild path).target e.tree =
    ({ name := .main, file := (e.entryBuild path).file, kind := .source, isTop := true },
      some (e.entryBuild path).file.path) := by
  unfold BuildRequest.target
  simp only [h.notDir, h.notInit, h.source, if_true, Bool.false_eq_true, if_false]
  rfl

/-- Such an entry lies in no package before it is accepted. -/
theorem IsPlainEntry.homePackage?_eq (h : e.IsPlainEntry path) :
    SearchPath.homePackage? ((e.entryBuild path).target e.tree).1 = none := by
  have hmain : ModuleName.main.package? = none := by decide
  simp [h.target_eq, SearchPath.homePackage?, hmain]

end Engine

open SearchPath in
/-- In package mode, over sources, an entry that is built for the first time runs in the package, and is queued with what
its absolute imports resolve to, and with an edge to nothing for each of its relative imports. -/
theorem pending_of_packageMode {e : Engine (List Identity)} {search : SearchPath} {package : String} {path : Path}
    (he : e.builder = .ofSources search e.tree) (hmode : e.policy.options.packageMode = some package)
    (hentry : e.IsPlainEntry path) {s s' : Session (List Identity)} (hnew : (e.entryBuild path).identity ∉ s.builder)
    (hkeeps : ¬ s.Keeps (e.entryBuild path).identity) {m : ModuleRecord}
    (h : ends (e.addEntry path) s = (.ok m, s')) :
    m.runtimePackage = some ⟨package⟩ ∧ ∃ text statements, e.tree.readText m.file.path = .ok text ∧
      Python.readImports text = .ok statements ∧ s'.pending = s.pending ++ [⟨m, statements.flatMap fun i =>
        if i.level = 0 then search.resolve e.tree m i else [lost m i]⟩] := by
  have hc := Engine.entered_of_ends h
  cases hc with
  | @built o events hb =>
    rw [he] at hb
    obtain ⟨hrecord, hgiven⟩ := Builder.given_of_ofSources hb
    have hid : ((e.entryBuild path).target e.tree).1.identity = (e.entryBuild path).identity := by
      rw [hentry.target_eq]
      rfl
    have hyields : search.Yields e.tree (e.entryBuild path) o.uses := by
      rcases hgiven with ⟨hknown, _⟩ | ⟨_, hyields, _⟩
      · rw [hrecord, hid] at hknown
        exact absurd hknown hnew
      · exact hyields
    have hkept : (s.cache.add (e.entryRecord o.record)).1 = e.entryRecord o.record := by
      refine Cache.add_of_none (Option.not_isSome_iff_eq_none.1 ?_)
      rw [show (e.entryRecord o.record).identity = o.record.identity from rfl, hrecord, hid]
      exact hkeeps
    have hfile : o.record.file = (e.entryBuild path).file := by rw [hrecord, hentry.target_eq]
    unfold SearchPath.Yields at hyields
    rw [hentry.target_eq] at hyields
    obtain ⟨text, statements, htext, hstatements, huses⟩ := hyields
    rw [hkept]
    refine ⟨?_, text, statements, ?_, hstatements, ?_⟩
    · simp [Engine.entryRecord, FollowOptions.runtimePackage, hmode]
    · exact hfile ▸ htext
    · have hresolved : o.uses = statements.flatMap fun i =>
          if i.level = 0 then search.resolve e.tree (e.entryRecord o.record) i
          else [lost (e.entryRecord o.record) i] := by
        rw [huses]
        congr 1
        funext i
        split
        next hi => exact resolve_of_absolute search hfile.symm hi
        next hi =>
          have hhomeless := hentry.homePackage?_eq
          rw [hentry.target_eq] at hhomeless
          rw [resolve_of_homeless search hhomeless hi]
          simp only [lost, Engine.entryRecord, hfile]
      rw [← hresolved]
      show s.pending ++ [⟨(s.cache.add (e.entryRecord o.record)).1, o.uses⟩] = _
      rw [hkept]

/-! ## A relative import of the entry -/

/-- An entry that imports its neighbour. -/
def FileTree.packaged : FileTree :=
  ((FileTree.empty ⟨"/w"⟩).add ["w", "main.py"] (.text "from . import x\n")).add ["w", "x.py"] (.text "")

namespace Engine

/-- An engine over the sources of this tree, in package mode. -/
def packaged : Engine (List Identity) where
  policy :=
    { options := { packageMode := some "P", followAll := true }, followTo := [], nofollowTo := [], bytecodeModules := [] }
  tree := .packaged
  builder := .ofSources ⟨[⟨"/w"⟩], []⟩ .packaged

end Engine

theorem pending_of_packageMode_packaged :
    ∃ m s', ends (Engine.packaged.addEntry ⟨"main.py"⟩) (.fresh []) = (.ok m, s') ∧
      m.runtimePackage = some ⟨"P"⟩ ∧ ∃ text statements, FileTree.packaged.readText m.file.path = .ok text ∧
        Python.readImports text = .ok statements ∧ s'.pending = [⟨m, statements.flatMap fun i =>
          if i.level = 0 then SearchPath.resolve ⟨[⟨"/w"⟩], []⟩ FileTree.packaged m i else [SearchPath.lost m i]⟩] := by
  have hentry : Engine.packaged.IsPlainEntry ⟨"main.py"⟩ :=
    ⟨by decide +kernel, by decide +kernel, by decide +kernel⟩
  obtain ⟨m, s', hadd⟩ : ∃ m s', ends (Engine.packaged.addEntry ⟨"main.py"⟩) (.fresh []) = (.ok m, s') :=
    exists_of_isOk (by decide +kernel)
  exact ⟨m, s', hadd, pending_of_packageMode (e := Engine.packaged) rfl rfl hentry List.not_mem_nil
    (by decide +kernel) hadd⟩

/-- The relative import of the entry could be resolved for the very record that is accepted: to the package and to the
neighbour. It is queued with an edge to nothing instead. -/
theorem Engine.packaged_pending_ne :
    ∃ m s' statements, ends (Engine.packaged.addEntry ⟨"main.py"⟩) (.fresh []) = (.ok m, s') ∧
      Python.readImports "from . import x\n" = .ok statements ∧
      FileTree.packaged.readText m.file.path = .ok "from . import x\n" ∧
      (statements.flatMap (SearchPath.resolve ⟨[⟨"/w"⟩], []⟩ FileTree.packaged m)).map ImportEdge.name = [⟨"P"⟩, ⟨"P.x"⟩] ∧
      s'.pending.map (·.uses) ≠ [statements.flatMap (SearchPath.resolve ⟨[⟨"/w"⟩], []⟩ FileTree.packaged m)] := by
  refine ⟨_, _, _, Prod.ext (by with_unfolding_all rfl) rfl, by with_unfolding_all rfl, ?_, ?_, ?_⟩
  · with_unfolding_all rfl
  · decide +kernel
  · decide +kernel

end ImportClosure
