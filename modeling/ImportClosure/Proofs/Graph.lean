import ImportClosure.Proofs.Builders
import ImportClosure.Proofs.Passes
import ImportClosure.Proofs.Paths

/-!
# The import graph of a table

Over a table the modules form a graph: one module brings another in if it imports it, literally or by a plugin's word,
the policy includes it, and the table can build it (`Engine.Brings`). What the steps of a session do to the modules that
are kept is said in terms of this graph.
-/

namespace ImportClosure

open Step

/-- A plugin layer whose decisions do not look at the file of a module, and which declares the same imports for all
modules of a name. -/
structure Plugins.AnswersByName (p : Plugins) : Prop where
  encounter : ∀ f g name kind, p.encounter f name kind = p.encounter g name kind
  implicitImports : ∀ m m' : ModuleRecord, m.name = m'.name → p.implicitImports m = p.implicitImports m'

/-- The plugin layer of a table is of this kind. -/
theorem PluginTable.answersByName (t : PluginTable) : t.plugins.AnswersByName where
  encounter _ _ _ _ := rfl
  implicitImports m m' h := by simp only [plugins, h]

/-- What a table knows of the modules, by their names. -/
abbrev ModuleTable := List (ModuleName × TableModule)

/-- Whether a table can build a module of this name. -/
def ModuleTable.Builds (table : ModuleTable) (name : ModuleName) : Prop :=
  ∃ row, table.lookup name = some row ∧ row.builds = true

namespace Engine

variable {σ : Type}

/-- A module imports what a query asks about: by an edge of the table, or because a plugin declares it. -/
def Targets (e : Engine σ) (table : ModuleTable) (name : ModuleName) (q : Query) : Prop :=
  (∃ row, table.lookup name = some row ∧ q ∈ row.uses.filterMap ImportEdge.query?) ∨
    ∃ (m : ModuleRecord) (imports : List ImplicitImport), m.name = name ∧
      e.policy.plugins.implicitImports m = .ok imports ∧ q ∈ imports.filterMap ImplicitImport.query?

/-- A module brings another in: it imports it, the policy includes it, and the table can build it. -/
def Brings (e : Engine σ) (table : ModuleTable) (i j : Identity) : Prop :=
  ∃ q, e.Targets table i.name q ∧ q.identity = j ∧ (e.policy.decide q).isIncluded = true ∧ table.Builds j.name

/-- The engine works over a table, its plugins answer by name, and what is library code depends on the place of a file. -/
structure IsOver (e : Engine (List BuildRequest)) (table : ModuleTable) : Prop where
  builder : e.builder = .ofTable table
  plugins : e.policy.plugins.AnswersByName
  library : e.policy.library.IgnoresSpelling

end Engine

/-- A queued module is one of the table: it carries the edges that the table has under its name. -/
def PendingModule.IsOf (m : PendingModule) (table : ModuleTable) : Prop :=
  ∃ row, table.lookup m.record.name = some row ∧ m.uses = row.uses

/-- The entry runs as the main module. -/
theorem Engine.name_of_addEntry {σ : Type} {e : Engine σ} (hbuilder : e.builder.NamesAsked) {s s' : Session σ}
    {path : Path} {m : ModuleRecord} (h : ends (e.addEntry path) s = (.ok m, s')) : m.name = .main := by
  cases Engine.entered_of_ends h with
  | @built o events hb => exact (congrArg Identity.name Cache.identity_add).trans (hbuilder _ _ _ hb)

section Table

variable {e : Engine (List BuildRequest)} {table : ModuleTable} {s s' : Session (List BuildRequest)}

/-- What a module asks about are its imports in the graph. -/
theorem Engine.IsOver.asks_iff (h : e.IsOver table) {m : PendingModule} (hm : m.IsOf table) {q : Query} :
    e.Asks m.record m.uses q ↔ e.Targets table m.record.name q := by
  obtain ⟨row, hrow, huses⟩ := hm
  unfold Engine.Asks Engine.Targets
  refine or_congr ?_ ?_
  · rw [huses]
    simp [hrow]
  · constructor
    · rintro ⟨imports, hi, hq⟩
      exact ⟨m.record, imports, rfl, hi, hq⟩
    · rintro ⟨m', imports, hm', hi, hq⟩
      exact ⟨imports, by rw [h.plugins.implicitImports m.record m' hm'.symm, hi], hq⟩

/-- A decision that stands is the policy's own. -/
theorem Engine.IsOver.decide_of_stands (h : e.IsOver table) {q : Query} {d : Decision} (hd : e.Stands q d) :
    e.policy.decide q = d := by
  obtain ⟨q', hk, hd⟩ := hd
  rw [← hd]
  exact Policy.decide_congr h.library h.plugins.encounter hk.symm

/-- What stands as included is what the policy includes. -/
theorem Engine.IsOver.isIncluded_of_stands (h : e.IsOver table) {q : Query} {reason : Reason}
    (hd : e.Stands q (.included reason)) : (e.policy.decide q).isIncluded = true := by
  rw [h.decide_of_stands hd]
  rfl

/-- The record that is kept for what the table gives has the identity that was requested and the edges of its row. It
is new unless the row is prebuilt. -/
theorem Engine.IsOver.exists_row (h : e.IsOver table) {r : BuildRequest} {x : List BuildRequest} {o : BuildOutcome}
    (ho : (e.builder.build r x).1.result = .ok (some o)) (c : Cache ModuleRecord) {m : ModuleRecord}
    (hm : m.identity = o.record.identity) :
    ∃ row, table.lookup (c.add m).1.name = some row ∧ row.builds = true ∧ (c.add m).1.identity = r.identity ∧
      o.uses = row.uses ∧ o.newlyBuilt = !row.prebuilt := by
  rw [h.builder] at ho
  have hid : (c.add m).1.identity = r.identity :=
    Cache.identity_add.trans (hm.trans (Builder.identity_of_ofTable ho))
  obtain ⟨row, hrow, hb, rfl⟩ := Builder.result_ofTable_iff.1 ho
  refine ⟨row, ?_, hb, hid, rfl, rfl⟩
  rw [show (c.add m).1.name = r.name from congrArg Identity.name hid]
  exact hrow

/-- What is got has the identity that was asked for. -/
theorem Recursed.identity_eq (h : e.IsOver table) {r : RecursionRequest} {signalled : Bool} {m : ModuleRecord}
    (hr : Recursed e r signalled s (.ok (some m)) s') : m.identity = r.identity := by
  rcases hr.same_or_gains with ⟨_, hgot⟩ | ⟨o, ho, _, _, hgot⟩
  · exact (hgot m rfl).1
  · cases hgot
    rw [h.builder] at ho
    exact Cache.identity_add.trans (Builder.identity_of_ofTable ho)

/-- Only what the table can build is got. -/
theorem Recursed.not_builds (h : e.IsOver table) {r : RecursionRequest} {signalled : Bool}
    (hr : Recursed e r signalled s (.ok none) s') : ¬ table.Builds r.name := by
  rintro ⟨row, hrow, hbuilds⟩
  cases hr with
  | passedOver events hnone hres =>
    rw [h.builder] at hres
    have hsome := (Builder.result_ofTable_iff (r := r.toBuild) (x := s.builder)).2 ⟨row, hrow, hbuilds, rfl⟩
    rw [hres] at hsome
    cases hsome

/-- A module that is asked for comes in if the table can build it. -/
theorem Recursed.keeps_self (h : e.IsOver table) {r : RecursionRequest} {signalled : Bool}
    {found : Option ModuleRecord} (hr : Recursed e r signalled s (.ok found) s') (hb : table.Builds r.name) :
    s'.Keeps r.identity := by
  cases found with
  | none => exact absurd hb (hr.not_builds h)
  | some m =>
    rw [← hr.identity_eq h]
    exact Option.isSome_iff_exists.2 ⟨m, hr.find?_eq⟩

/-- A query that has been followed leads to a module that is kept, if it is included and can be built. -/
theorem Followed.keeps (h : e.IsOver table) {allowed : Action → Prop} {q : Query} (hq : Followed e allowed q s)
    (hd : (e.policy.decide q).isIncluded = true) (hb : table.Builds q.name) : s.Keeps q.identity := by
  rcases hq with ⟨d, hstands, hno⟩ | ⟨r, found, s₁, s₂, hasks, hr, hm⟩
  · rw [h.decide_of_stands hstands, hno] at hd
    cases hd
  · rw [← hasks.identity_eq]
    exact hm.keeps_mono (hr.keeps_self h (by rwa [hasks.1]))

/-- What comes in while queued modules are consumed is brought in by one of them. -/
theorem Engine.IsOver.gains_of_consumes (h : e.IsOver table) {ms : List PendingModule} (hms : ∀ m ∈ ms, m.IsOf table)
    {a : Action} (ha : Action.Consumes e ms a) (hm : Move e a s s') :
    s.Same s' ∨ ∃ m ∈ ms, ∃ n row, e.Brings table m.record.identity n.record.identity ∧
      table.lookup n.record.name = some row ∧ n.uses = row.uses ∧ ¬ s.Keeps n.record.identity ∧
      s.Gains n (!row.prebuilt) true s' := by
  rcases Engine.same_or_gains_of_consumes ha hm with
    hs | ⟨m, hmem, q, reason, r, o, hq, hd, hasks, ho, hnew, hg⟩
  · exact Or.inl hs
  · obtain ⟨row, hrow, hb, hid, huses, hnewly⟩ := h.exists_row ho s.cache rfl
    have hqid : q.identity = (s.cache.add o.record).1.identity := hasks.identity_eq.symm.trans hid.symm
    rw [hnewly] at hg
    refine Or.inr ⟨m, hmem, ⟨_, o.uses⟩, row, ⟨q, ?_, hqid, ?_, row, hrow, hb⟩, hrow, huses, ?_, hg⟩
    · exact (h.asks_iff (hms m hmem)).1 hq
    · exact h.isIncluded_of_stands hd
    · exact hid ▸ hnew

end Table

/-! ## An engine that follows everything -/

namespace ModuleTable

/-- An engine over a table that includes all imports, in a file tree with one module that nothing imports. -/
def followed (table : ModuleTable) : Engine (List BuildRequest) where
  policy := { options := { followAll := true }, followTo := [], nofollowTo := [], bytecodeModules := [] }
  tree := (FileTree.empty ⟨"/w"⟩).add ["w", "extra.py"] (.text "")
  builder := .ofTable table

/-- The engine over a table that follows everything is over the table. -/
theorem isOver_followed (table : ModuleTable) : table.followed.IsOver table :=
  ⟨rfl, ⟨fun _ _ _ _ => rfl, fun _ _ _ => rfl⟩, fun _ _ _ => rfl⟩

/-- An edge of line 1 to the source file of a module in the work directory. -/
def edgeTo (name : String) : ImportEdge :=
  .found ⟨name⟩ ⟨⟨"/w/" ++ name ++ ".py"⟩⟩ .source 0 ⟨⟨"/w/importer.py"⟩, 1⟩

/-- A diamond with a cycle below it, a module that cannot be built, and one that may have been built before. -/
def diamond (prebuilt : Bool) : ModuleTable := [
  (.main, { uses := [edgeTo "a", edgeTo "b", edgeTo "broken"] }),
  (⟨"a"⟩, { uses := [edgeTo "c"] }),
  (⟨"b"⟩, { uses := [edgeTo "c", edgeTo "old"] }),
  (⟨"c"⟩, { uses := [edgeTo "a"] }),
  (⟨"broken"⟩, { broken := true }),
  (⟨"old"⟩, { uses := [edgeTo "hidden"], prebuilt }),
  (⟨"hidden"⟩, {}),
  (⟨"extra"⟩, {})]

end ModuleTable

end ImportClosure
