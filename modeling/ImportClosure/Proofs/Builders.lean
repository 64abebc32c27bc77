import ImportClosure.Builder.Source
import ImportClosure.Builder.Table

/-!
# What the builders answer

A table answers a request out of the row of the requested name, whatever it remembers. A builder over sources answers
with the record of the request's target; it is new exactly if it is not remembered, and is remembered from then on.
-/

namespace ImportClosure

/-- The module that a build request asks for. -/
def BuildRequest.identity (r : BuildRequest) : Identity :=
  ⟨r.name, r.file.place⟩

/-! ## What may be asked of a builder -/

namespace Builder

variable {σ : Type}

/-- A builder names its records as requested. -/
def NamesAsked (b : Builder σ) : Prop :=
  ∀ r x o, (b.build r x).1.result = .ok (some o) → o.record.name = r.name

/-- A builder gives its records with the requested name and kind. -/
def AnswersAsked (b : Builder σ) : Prop :=
  ∀ r x o, (b.build r x).1.result = .ok (some o) → o.record.name = r.name ∧ o.record.kind = r.kind

/-- A builder leaves it to the plugins to forbid imports. -/
def NeverForbids (b : Builder σ) : Prop :=
  ∀ r x f, (b.build r x).1.result ≠ .error (.forbidden f)

/-- A builder that answers with name and kind answers with the name. -/
theorem AnswersAsked.namesAsked {b : Builder σ} (h : b.AnswersAsked) : b.NamesAsked :=
  fun r x o ho => (h r x o ho).1

end Builder

/-! ## Tables -/

namespace Builder

variable {table : List (ModuleName × TableModule)} {r : BuildRequest} {x : List BuildRequest} {o : BuildOutcome}

/-- A table gives a module exactly if the row of the requested name can be built. -/
theorem result_ofTable_iff : ((ofTable table).build r x).1.result = .ok (some o) ↔
    ∃ m, table.lookup r.name = some m ∧ m.builds = true ∧
      o = ⟨{ name := r.name, file := r.file, kind := r.kind, isPackage := m.isPackage }, m.uses, !m.prebuilt⟩ := by
  simp only [ofTable]
  cases h : table.lookup r.name with
  | none => simp
  | some m =>
    simp only [Option.some.injEq, exists_eq_left']
    unfold TableModule.answer TableModule.builds
    cases m.error with
    | some text => simp
    | none => cases m.broken <;> simp [eq_comm]

/-- A table answers with the name and the kind that are requested. -/
theorem answersAsked_ofTable (table : List (ModuleName × TableModule)) : (ofTable table).AnswersAsked := by
  intro r x o h
  obtain ⟨m, _, _, rfl⟩ := result_ofTable_iff.1 h
  exact ⟨rfl, rfl⟩

/-- A table forbids nothing. -/
theorem neverForbids_ofTable (table : List (ModuleName × TableModule)) : (ofTable table).NeverForbids := by
  intro r x f h
  simp only [ofTable] at h
  cases hm : table.lookup r.name with
  | none => simp [hm] at h
  | some m =>
    simp only [hm] at h
    unfold TableModule.answer at h
    cases he : m.error with
    | some text => simp [he] at h
    | none => cases hb : m.broken <;> simp [he, hb] at h

/-- What a table gives has the identity that was requested. -/
theorem identity_of_ofTable (h : ((ofTable table).build r x).1.result = .ok (some o)) :
    o.record.identity = r.identity := by
  obtain ⟨m, _, _, rfl⟩ := result_ofTable_iff.1 h
  rfl

end Builder

/-! ## Sources -/

/-- A target has the name that is requested. -/
theorem BuildRequest.name_target (r : BuildRequest) (t : FileTree) : (r.target t).1.name = r.name := by
  by_cases hd : t.isDir r.file.path
  · by_cases hi : t.hasInitEntry r.file.path <;> simp [target, hd, hi]
  · by_cases hi : r.file.isInitEntry <;> simp [target, hd, hi]

/-- A source that has a text without syntax errors. -/
def FileTree.Parses (t : FileTree) (path : Path) : Prop :=
  ∃ text statements, t.readText path = .ok text ∧ Python.readImports text = .ok statements

/-- The edges of the target of a request: none if it has no source, else those of the import statements in it. -/
def SearchPath.Yields (p : SearchPath) (t : FileTree) (r : BuildRequest) (uses : List ImportEdge) : Prop :=
  match (r.target t).2 with
  | none => uses = []
  | some path => ∃ text statements, t.readText path = .ok text ∧ Python.readImports text = .ok statements ∧
      uses = statements.flatMap (p.resolve t (r.target t).1)

/-- What a builder over sources comes to. -/
inductive SourceBuild (p : SearchPath) (t : FileTree) (r : BuildRequest) (x : List Identity) :
    Except Error (Option BuildOutcome) → List Identity → Prop where
  /-- The module is remembered. -/
  | known (h : (r.target t).1.identity ∈ x) : SourceBuild p t r x (.ok (some ⟨(r.target t).1, [], false⟩)) x
  /-- The module is built for the first time. -/
  | new {uses : List ImportEdge} (h : (r.target t).1.identity ∉ x) (hu : p.Yields t r uses) :
      SourceBuild p t r x (.ok (some ⟨(r.target t).1, uses, true⟩)) ((r.target t).1.identity :: x)
  /-- The source cannot be read. -/
  | failed {result : Except Error (Option BuildOutcome)} (hr : ∀ o, result ≠ .ok (some o)) :
      SourceBuild p t r x result x

/-- Edges are read from a source only if it has a text and no error in it. -/
theorem SearchPath.exists_of_readSource {p : SearchPath} {t : FileTree} {record : ModuleRecord} {path : Path}
    {hidden : Bool} {edges : List ImportEdge} {notes : List BuildNote}
    (h : p.readSource t record path hidden = (.ok (some edges), notes)) :
    ∃ text statements, t.readText path = .ok text ∧ Python.readImports text = .ok statements ∧
      edges = statements.flatMap (p.resolve t record) := by
  unfold readSource at h
  cases ht : t.readText path with
  | error cause =>
    rw [ht] at h
    cases hidden <;> simp at h
  | ok text =>
    simp only [ht, scan] at h
    cases hr : Python.readImports text with
    | error line =>
      rw [hr] at h
      cases hidden <;> simp [bind, Except.bind] at h
    | ok statements =>
      rw [hr] at h
      have he := (Prod.mk.inj h).1
      exact ⟨text, statements, rfl, hr, (Option.some.inj (Except.ok.inj he)).symm⟩

/-- Building from sources comes to what `SourceBuild` lists. -/
theorem Builder.sourceBuild (p : SearchPath) (t : FileTree) (r : BuildRequest) (x : List Identity) :
    SourceBuild p t r x ((ofSources p t).build r x).1.result ((ofSources p t).build r x).2 := by
  simp only [Builder.ofSources]
  split
  next h => exact .known (by simpa using h)
  next h =>
    have hx : (r.target t).1.identity ∉ x := by simpa using h
    split
    next hs =>
      refine .new hx ?_
      unfold SearchPath.Yields
      rw [hs]
    next path hs =>
      split
      next err notes _ => exact .failed (by simp)
      next notes _ => exact .failed (by simp)
      next edges notes hread =>
        refine .new hx ?_
        unfold SearchPath.Yields
        rw [hs]
        exact SearchPath.exists_of_readSource hread

/-- What is given from sources is the target of the request: as it is remembered, without edges, or newly built. -/
theorem Builder.given_of_ofSources {p : SearchPath} {t : FileTree} {r : BuildRequest} {x : List Identity}
    {o : BuildOutcome} (h : ((ofSources p t).build r x).1.result = .ok (some o)) :
    o.record = (r.target t).1 ∧
      (o.record.identity ∈ x ∧ o.uses = [] ∧ o.newlyBuilt = false ∧ ((ofSources p t).build r x).2 = x ∨
        o.record.identity ∉ x ∧ p.Yields t r o.uses ∧ o.newlyBuilt = true ∧
          ((ofSources p t).build r x).2 = o.record.identity :: x) := by
  have hb := sourceBuild p t r x
  rw [h] at hb
  generalize ((ofSources p t).build r x).2 = x' at hb ⊢
  cases hb with
  | known hx => exact ⟨rfl, Or.inl ⟨hx, rfl, rfl, rfl⟩⟩
  | new hx hu => exact ⟨rfl, Or.inr ⟨hx, hu, rfl, rfl⟩⟩
  | failed hno => exact absurd rfl (hno o)

namespace Builder

variable {p : SearchPath} {t : FileTree} {r : BuildRequest} {x : List Identity}

/-- A module that is not remembered is built if its source can be read. -/
theorem exists_build_of_reads (hx : (r.target t).1.identity ∉ x) (hread : ∀ path ∈ (r.target t).2, t.Parses path) :
    ∃ o, ((ofSources p t).build r x).1.result = .ok (some o) := by
  simp only [ofSources, List.contains_eq_mem, decide_eq_true_eq, hx, if_false]
  cases hs : (r.target t).2 with
  | none => exact ⟨_, rfl⟩
  | some path =>
    obtain ⟨text, statements, htext, hstatements⟩ := hread path hs
    simp only [SearchPath.readSource, SearchPath.scan, htext, hstatements, bind, Except.bind]
    exact ⟨_, rfl⟩

/-- A module that is not remembered is passed over if its source cannot be read or parsed and that is no error. -/
theorem build_of_not_parses (hx : (r.target t).1.identity ∉ x) {path : Path} (hs : (r.target t).2 = some path)
    (hread : ¬ t.Parses path) (hh : r.hideSyntaxError = true) :
    ((ofSources p t).build r x).1.result = .ok none ∧ ((ofSources p t).build r x).2 = x := by
  simp only [ofSources, List.contains_eq_mem, decide_eq_true_eq, hx, if_false, hs, SearchPath.readSource, hh]
  cases ht : t.readText path with
  | error cause => simp
  | ok text =>
    cases hr : Python.readImports text with
    | error line => simp [SearchPath.scan, hr, bind, Except.bind]
    | ok statements => exact absurd ⟨text, statements, ht, hr⟩ hread

/-- Building from sources never fails unless errors are to be shown. -/
theorem result_ne_error_of_hidden (hh : r.hideSyntaxError = true) (err : Error) :
    ((ofSources p t).build r x).1.result ≠ .error err := by
  simp only [ofSources, hh, SearchPath.readSource, if_true]
  split
  · simp
  · cases (r.target t).2 with
    | none => simp
    | some path =>
      cases ht : t.readText path with
      | error cause => simp [ht]
      | ok text => cases hs : p.scan t (r.target t).1 text <;> simp [ht, hs]

end Builder

end ImportClosure
