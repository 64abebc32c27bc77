import ImportClosure.Config.Rules
import ImportClosure.Policy
import ImportClosure.Proofs.Resolved
import ImportClosure.Proofs.Step
import Mathlib.Data.Set.Finite.List

/-!
# What discovery can ask for

All that a session over a tree can come to ask for goes under names over a finite vocabulary and leads to finitely many
files, and the names are bounded by how deep the files lie (`FileTree.Asked`). Import statements keep to this if those
that are relative lead down (`FileTree.Asked.resolve`), so there are only finitely many such modules
(`FileTree.finite_modulesWithin`).
-/

namespace ImportClosure

/-! ## Where the names come from -/

/-- The imports that plugins declare are among some modules. -/
def Plugins.DeclaresFrom (p : Plugins) (declared : List Query) : Prop :=
  ∀ m imports, p.implicitImports m = .ok imports → ∀ q ∈ imports.filterMap ImplicitImport.query?, q ∈ declared

/-- The modules that plugin rules declare as imports. -/
def PluginRules.declared (r : PluginRules) : List Query :=
  (r.implicit.flatMap ImplicitRule.imports).filterMap fun name =>
    (r.search.locate r.tree ⟨name⟩).map fun (file, kind) => ⟨file, ⟨name⟩, kind, false⟩

/-- What plugin rules declare is what they name, looked up on their search path. -/
theorem PluginRules.of_mem_implicitImports {r : PluginRules} {m : ModuleRecord} {imports : List ImplicitImport}
    (h : r.plugins.implicitImports m = .ok imports) {i : ImplicitImport} (hi : i ∈ imports) :
    i.name ∈ r.implicitNames m.name ∧ ∀ file ∈ i.file, r.search.locate r.tree i.name = some (file, i.kind) := by
  obtain ⟨name, hname, himport⟩ := exists_of_mem_mapM h hi
  unfold implicitImport at himport
  cases hforbid : r.refuse name with
  | error what => simp [hforbid, bind, Except.bind] at himport
  | ok _ =>
    simp only [hforbid, bind, Except.bind, Except.ok.injEq] at himport
    subst himport
    refine ⟨hname, fun file hfile => ?_⟩
    obtain ⟨⟨file', kind⟩, hloc, rfl⟩ := Option.map_eq_some_iff.1 hfile
    dsimp only
    rw [hloc]
    rfl

/-- Plugin rules declare modules of a finite list. -/
theorem PluginRules.declaresFrom (r : PluginRules) : r.plugins.DeclaresFrom r.declared := by
  intro m imports h q hq
  obtain ⟨i, hi, hq⟩ := List.mem_filterMap.1 hq
  obtain ⟨file, hfile, rfl⟩ := Option.map_eq_some_iff.1 hq
  obtain ⟨hname, hloc⟩ := of_mem_implicitImports h hi
  obtain ⟨rule, hrule, hname⟩ := List.mem_flatMap.1 hname
  obtain ⟨text, htext, hname⟩ := List.mem_map.1 hname
  refine List.mem_filterMap.2 ⟨text, List.mem_flatMap.2 ⟨rule, (List.mem_filter.1 hrule).1, htext⟩, ?_⟩
  rw [hname, hloc file hfile]
  rfl

namespace FileTree

variable {t : FileTree} {declared : List Query} {name : ModuleName} {file f : ModuleFile}

/-- The import statements of all sources in a tree. -/
def statements (t : FileTree) : List ImportStatement :=
  t.entries.flatMap fun entry =>
    match entry.2 with
    | .text source => (Python.readImports source).toOption.getD []
    | _ => []

/-- Whether all relative imports of a tree lead down. -/
def importsLeadDown (t : FileTree) : Bool :=
  t.statements.all ImportStatement.leadsDown

/-- The statements of a source that can be read are among those of the tree. -/
theorem mem_statements {p : Path} {source : String} {statements : List ImportStatement} {i : ImportStatement}
    (ht : t.readText p = .ok source) (hr : Python.readImports source = .ok statements) (hi : i ∈ statements) :
    i ∈ t.statements := by
  obtain ⟨place, hplace⟩ : ∃ place, t.content? place = some (.text source) := by
    unfold readText at ht
    cases hl : t.locate p with
    | error err => simp [hl, bind, Except.bind] at ht
    | ok place =>
      simp only [hl, bind, Except.bind] at ht
      split at ht
      next s hs =>
        cases ht
        exact ⟨place, hs⟩
      all_goals cases ht
  unfold content? at hplace
  split at hplace
  · cases hplace
  · obtain ⟨l₁, l₂, hentries, _⟩ := List.lookup_eq_some_iff.1 hplace
    refine List.mem_flatMap.2 ⟨(place, .text source), by simp [hentries], ?_⟩
    simpa [hr, Except.toOption] using hi

/-- The components of all names that a session over a tree begins with. -/
def vocabulary (t : FileTree) (declared : List Query) : List String :=
  ModuleName.main.components ++ declared.flatMap (fun q => q.name.components) ++
    t.statements.flatMap ImportStatement.components

/-- The files that a session over a tree can come to. -/
def files (t : FileTree) (declared : List Query) : Set ModuleFile :=
  {f | t.Has f ∨ ∃ q ∈ declared, q.file = f}

/-- What a session over a tree can come to ask for. The name is one that sessions begin with, or bounded by the depth of
the file. -/
structure Asked (t : FileTree) (declared : List Query) (name : ModuleName) (file : ModuleFile) : Prop where
  words : ∀ c ∈ name.components, c ∈ t.vocabulary declared
  mem_files : file ∈ t.files declared
  length_le : name.components.length ≤ (t.vocabulary declared).length ∨
    file.path.isAbsolute = true ∧
      name.components.length ≤ file.place.length + 2 * (t.vocabulary declared).length

/-- The words of a statement belong to the vocabulary. -/
theorem components_sublist (declared : List Query) {i : ImportStatement} (hi : i ∈ t.statements) :
    i.components.Sublist (t.vocabulary declared) := by
  refine List.Sublist.trans ?_ (List.sublist_append_right _ _)
  rw [List.flatMap_def]
  exact List.sublist_flatten_of_mem (List.mem_map_of_mem hi)

/-- A name out of the vocabulary may be asked for. -/
theorem Asked.of_sublist (hname : name.components.Sublist (t.vocabulary declared)) (hfile : file ∈ t.files declared) :
    t.Asked declared name file where
  words _ hc := hname.subset hc
  mem_files := hfile
  length_le := Or.inl hname.length_le

/-- What plugins declare may be asked for. -/
theorem Asked.of_declared {q : Query} (hq : q ∈ declared) : t.Asked declared q.name q.file := by
  refine .of_sublist ?_ (Or.inr ⟨q, hq, rfl⟩)
  refine List.Sublist.trans ?_ (List.sublist_append_left _ _)
  refine List.Sublist.trans ?_ (List.sublist_append_right _ _)
  rw [List.flatMap_def]
  exact List.sublist_flatten_of_mem (List.mem_map_of_mem hq)

/-- The entry may be asked for. -/
theorem Asked.main (hf : t.Has file) : t.Asked declared .main file :=
  .of_sublist ((List.sublist_append_left _ _).trans (List.sublist_append_left _ _)) (Or.inl hf)

/-- Import statements of what may be asked for lead to what may be asked for. -/
theorem Asked.resolve {s : SearchPath} {r : BuildRequest} {i : ImportStatement} {edge : ImportEdge}
    (hw : t.workDir.isAbsolute = true) (hdown : t.importsLeadDown = true) (h : t.Asked declared r.name r.file)
    (hi : i ∈ t.statements) (he : edge ∈ s.resolve t (r.target t).1 i) (hf : edge.file = some f) :
    t.Asked declared edge.name f := by
  have hsub := components_sublist declared hi
  dsimp only [SearchPath.resolve] at he
  split at he
  next hlevel =>
    obtain ⟨hhas, hname⟩ := SearchPath.of_mem_resolveAbsolute he hf
    exact .of_sublist (hname.trans hsub) (Or.inl hhas)
  next hlevel =>
    have hwords : ∀ word ∈ i.path :: i.names, leadsDown word = true := by
      have hall := List.all_eq_true.1 hdown i hi
      rw [ImportStatement.leadsDown, Bool.or_eq_true, List.all_eq_true] at hall
      exact hall.resolve_left hlevel
    obtain ⟨⟨home, homeDir⟩, package, dir, behind, hhome, hclimb, hhas, hbehind, hname, hdeep⟩ :=
      SearchPath.exists_of_mem_resolveRelative hw hwords he hf
    obtain ⟨hhomePre, hhomeDeep⟩ := SearchPath.homePackage?_spec hw hhome
    obtain ⟨hpre, hclimbDeep⟩ := SearchPath.climb_spec hclimb
    have habs := isAbsolute_of_has hw hhas
    have hshort := (hbehind.trans hsub).length_le
    have hpackage := (hpre.trans hhomePre).length_le
    refine ⟨fun c hc => ?_, Or.inl hhas, Or.inr ⟨habs, ?_⟩⟩
    · rw [hname] at hc
      rcases List.mem_append.1 hc with hc | hc
      · exact h.words c ((hpre.trans hhomePre).subset hc)
      · exact hsub.subset (hbehind.subset hc)
    · rw [hname, List.length_append]
      rcases h.length_le with hle | ⟨ha, hle⟩
      · omega
      · obtain ⟨hhomeAbs, hhomeLe⟩ := hhomeDeep ha
        obtain ⟨hdirAbs, hdirLe⟩ := hclimbDeep hhomeAbs
        have := hdirLe _ (hhomeLe _ hle)
        have := hdeep hdirAbs
        omega

/-! ## There is only so much of it -/

/-- There are only so many texts of a length. -/
theorem finite_utf8ByteSize_le (n : Nat) : {s : String | s.utf8ByteSize ≤ n}.Finite := by
  have : Finite UInt8 := Finite.of_injective UInt8.toFin fun _ _ => UInt8.toFin_inj.1
  have hbytes : ((fun s : String => s.toByteArray.data.toList) '' {s | s.utf8ByteSize ≤ n}).Finite := by
    refine (List.finite_length_le UInt8 n).subset ?_
    rintro _ ⟨s, hs, rfl⟩
    exact hs
  refine hbytes.of_finite_image fun s _ s' _ h => ?_
  exact String.toByteArray_inj.1 (ByteArray.ext (Array.toList_inj.1 h))

/-- Only paths up to a length lead anywhere. -/
theorem utf8ByteSize_le_of_exists? {p : Path} (h : t.exists? p = true) : p.text.utf8ByteSize ≤ maxPathSize := by
  rw [← Nat.not_lt]
  intro hlong
  have hl : ∃ err, t.locate p = .error err := by
    unfold locate
    split
    · exact ⟨_, rfl⟩
    · split
      · exact ⟨_, rfl⟩
      · exact ⟨_, rfl⟩
  obtain ⟨err, hl⟩ := hl
  simp [exists?, read?, hl] at h

theorem finite_files (t : FileTree) (declared : List Query) : (t.files declared).Finite := by
  have hpaths : {p : Path | t.exists? p = true}.Finite := by
    refine ((finite_utf8ByteSize_le maxPathSize).image Path.mk).subset fun p hp => ?_
    exact ⟨p.text, utf8ByteSize_le_of_exists? hp, rfl⟩
  refine ((hpaths.image (ModuleFile.ofPath t.workDir)).union (declared.map Query.file).finite_toSet).subset ?_
  rintro f (⟨p, hp, rfl⟩ | ⟨q, hq, rfl⟩)
  · exact Or.inl ⟨p, hp, rfl⟩
  · exact Or.inr (List.mem_map_of_mem hq)

/-- There are only so many names of a length over a vocabulary. -/
theorem finite_names (words : List String) (most : Nat) :
    {n : ModuleName | n.components.length ≤ most ∧ ∀ c ∈ n.components, c ∈ words}.Finite := by
  have hlists : (ModuleName.components '' {n | n.components.length ≤ most ∧ ∀ c ∈ n.components, c ∈ words}).Finite := by
    refine ((List.finite_length_le {c // c ∈ words} most).image (List.map Subtype.val)).subset ?_
    rintro _ ⟨n, ⟨hlen, hwords⟩, rfl⟩
    exact ⟨n.components.attachWith _ hwords, by simpa using hlen, by simp⟩
  refine hlists.of_finite_image fun n _ n' _ h => ?_
  have htext : n.text = n'.text := by
    rw [← Text.unfields_fields '.' n.text, ← Text.unfields_fields '.' n'.text]
    exact congrArg (Text.unfields '.') h
  cases n
  cases n'
  exact congrArg ModuleName.mk htext

/-- The modules whose names are over the vocabulary and have at most so many components. -/
def modulesWithin (t : FileTree) (declared : List Query) (most : Nat) : Set Identity :=
  {i | (i.name.components.length ≤ most ∧ ∀ c ∈ i.name.components, c ∈ t.vocabulary declared) ∧
    ∃ f ∈ t.files declared, f.place = i.place}

theorem finite_modulesWithin (t : FileTree) (declared : List Query) (most : Nat) : (t.modulesWithin declared most).Finite := by
  refine (((finite_names (t.vocabulary declared) most).prod (t.finite_files declared)).image
    fun nf => (⟨nf.1, nf.2.place⟩ : Identity)).subset ?_
  rintro ⟨name, place⟩ ⟨hname, f, hf, hplace⟩
  exact ⟨(name, f), ⟨hname, hf⟩, congrArg (Identity.mk name) hplace⟩

/-- Names that may be asked for have only so many components. -/
theorem exists_length_le (t : FileTree) (declared : List Query) :
    ∃ most, ∀ name file, t.Asked declared name file → name.components.length ≤ most := by
  obtain ⟨deepest, hdeepest⟩ := ((t.finite_files declared).image fun f => f.place.length).bddAbove
  refine ⟨deepest + 2 * (t.vocabulary declared).length, fun name file h => ?_⟩
  have hdeep : file.place.length ≤ deepest := hdeepest ⟨file, h.mem_files, rfl⟩
  rcases h.length_le with hle | ⟨_, hle⟩ <;> omega

/-- The target of what may be asked for is one of these modules. -/
theorem Asked.target_mem {r : BuildRequest} {most : Nat} (h : t.Asked declared r.name r.file)
    (hmost : r.name.components.length ≤ most) : (r.target t).1.identity ∈ t.modulesWithin declared most := by
  have hmem : ∀ m : ModuleRecord, m.name = r.name → m.file ∈ t.files declared →
      m.identity ∈ t.modulesWithin declared most := by
    rintro ⟨name, file, kind⟩ rfl hfile
    exact ⟨⟨hmost, h.words⟩, file, hfile, rfl⟩
  rcases r.target_spec t with ⟨hm, _⟩ | ⟨_, hname, hfile | ⟨hinit, hfile⟩⟩
  · rw [hm]
    exact hmem _ rfl h.mem_files
  · exact hmem _ hname (hfile ▸ h.mem_files)
  · exact hmem _ hname (Or.inl ⟨_, exists?_of_isFile hinit, hfile⟩)

end FileTree

end ImportClosure
