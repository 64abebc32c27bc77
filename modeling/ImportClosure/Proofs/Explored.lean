import ImportClosure.Proofs.Origins
import ImportClosure.Proofs.WalkGraph

/-!
# Walks explore their graph

Over a table, whatever else is kept already, a walk that succeeds keeps all modules that its items lead to
(`Engine.walk_explores`), and obtains no other (`Engine.obtained_of_explores`). A module that is kept already may have come
from another file of the same place. It opens the same members, since all files are written plainly (`Engine.Tidy`).
-/

namespace ImportClosure

open Step

/-- A module is as the table has it: its row can be built, and tells whether it is a package. -/
def ModuleRecord.IsOf (m : ModuleRecord) (table : ModuleTable) : Prop :=
  ∃ row, table.lookup m.name = some row ∧ row.builds = true ∧ m.isPackage = row.isPackage

/-- What is as the table has it can be built. -/
theorem ModuleRecord.IsOf.builds {m : ModuleRecord} {table : ModuleTable} (h : m.IsOf table) : table.Builds m.name :=
  h.imp fun _ hrow => ⟨hrow.1, hrow.2.1⟩

namespace Engine

/-- What holds of a session over a table whose imports are to plainly written files. -/
structure Tidy (e : Engine (List BuildRequest)) (table : ModuleTable) (s : Session (List BuildRequest)) : Prop where
  remembers : e.Remembers s
  kept : ∀ m ∈ s.cache.modules, m.name ≠ .main → m.IsOf table ∧ m.file.path.IsPlain
  pending : ∀ m ∈ s.pending, m.IsOf table

/-- All imports, in the table and by the plugins, are to plainly written files. A path that is made absolute is written so
(`Path.IsPlain.absolute`). -/
def AsksPlainly (e : Engine (List BuildRequest)) (table : ModuleTable) : Prop :=
  ∀ name q, e.Targets table name q → q.file.path.IsPlain

end Engine

/-- What may happen while items are walked, and besides: no file is asked for that is not written plainly, and nothing is
fetched but what the items lead to, if the table can build it. -/
def Action.Explores (e : Engine (List BuildRequest)) (table : ModuleTable) (items : List WalkItem) : Action → Prop
  | recursed r _ => r.file.path.IsPlain
  | fetched r => r.file.path.IsPlain ∧ ∃ q, r.AsksFor q ∧ (e.policy.decide q).isIncluded = true ∧
      (table.Builds q.name → ∃ item ∈ items, e.Reaches table item q)
  | _ => True

section Table

variable {e : Engine (List BuildRequest)} {table : ModuleTable} {s s' : Session (List BuildRequest)}
  {items items' : List WalkItem} {a : Action}

/-- What explores some items explores any that reach the same. -/
theorem Action.Explores.mono (h : a.Explores e table items)
    (hle : ∀ item ∈ items, ∀ q, e.Reaches table item q → ∃ item' ∈ items', e.Reaches table item' q) :
    a.Explores e table items' := by
  cases a with
  | fetched r =>
    obtain ⟨hplain, q, hr, hinc, hreaches⟩ := h
    refine ⟨hplain, q, hr, hinc, fun hb => ?_⟩
    obtain ⟨item, hitem, hq⟩ := hreaches hb
    exact hle item hitem q hq
  | _ => exact h

namespace Engine

/-! ## Tidy sessions -/

/-- A session in which nothing has happened is tidy. -/
theorem Tidy.fresh (e : Engine (List BuildRequest)) (table : ModuleTable) (x : List BuildRequest) :
    e.Tidy table (.fresh x) where
  remembers := .of_nil rfl
  kept m hm := by cases hm
  pending m hm := by cases hm

/-- What is built for a request is as the table has it, in the file of the request. -/
theorem Grants.isOf (he : e.IsOver table) {r : RecursionRequest} {m : ModuleRecord} (h : e.Grants r m) :
    m.IsOf table ∧ m.file = r.file := by
  obtain ⟨_, x, o, ho, rfl⟩ := h
  rw [he.builder] at ho
  obtain ⟨row, hrow, hb, rfl⟩ := Builder.result_ofTable_iff.1 ho
  exact ⟨⟨row, hrow, hb, rfl⟩, rfl⟩

/-- What an action adds to the queue has the edges of its row. -/
theorem pending_of_move (he : e.IsOver table) (hm : Move e a s s') {m : PendingModule} (hmem : m ∈ s'.pending) :
    m ∈ s.pending ∨ m.IsOf table := by
  rcases hm.same_or_brings with ⟨_, hpending, _⟩ | ⟨r, _, o, k, ho, _, hof, _, hpending⟩
  · exact Or.inl (hpending hmem)
  · rcases List.mem_append.1 (hpending hmem) with hold | hnew
    · exact Or.inl hold
    · have hid : k.identity = o.record.identity := by rcases hof with rfl | rfl <;> rfl
      obtain ⟨row, hrow, _, _, huses, _⟩ := he.exists_row ho s.cache hid
      rw [List.mem_singleton.1 hnew]
      exact Or.inr ⟨row, hrow, huses⟩

/-- Exploring leaves a session tidy. -/
theorem Tidy.move (he : e.IsOver table) (h : e.Tidy table s) (ha : a.Explores e table items) (hm : Move e a s s') :
    e.Tidy table s' where
  remembers := h.remembers.move hm
  kept := by
    intro m hmem hname
    have hgrants : ∀ {r : RecursionRequest}, r.file.path.IsPlain → e.Grants r m → m.IsOf table ∧ m.file.path.IsPlain := by
      intro r hplain hg
      obtain ⟨hof, hfile⟩ := hg.isOf he
      exact ⟨hof, hfile ▸ hplain⟩
    cases a with
    | recursed r signalled =>
      cases hm
      rcases mem_of_recurse hmem with hold | hg
      · exact h.kept m hold hname
      · exact hgrants ha hg
    | fetched r =>
      cases hm
      rw [cache_of_fetch] at hmem
      rcases mem_of_recurse hmem with hold | hg
      · exact h.kept m hold hname
      · exact hgrants ha.1 hg
    | entered path =>
      cases hm
      rcases mem_of_addEntry hmem with hold | ⟨s₁, hr, _⟩
      · exact h.kept m hold hname
      · exact absurd (name_of_addEntry (he.builder ▸ (Builder.answersAsked_ofTable table).namesAsked) hr) hname
    | drained =>
      cases hm
      exact h.kept m hmem hname
    | _ =>
      rw [(hm.alike rfl).cache] at hmem
      exact h.kept m hmem hname
  pending := fun m hmem => (pending_of_move he hm hmem).elim (h.pending m) id

/-- A run that explores leaves a tidy session tidy. -/
theorem Tidy.moves (he : e.IsOver table) (h : e.Tidy table s) (hm : Moves e (Action.Explores e table items) s s') :
    e.Tidy table s' :=
  hm.keeps (fun _ _ _ ha hm h => h.move he ha hm) h

/-- What is kept under an included name is as the table has it. -/
theorem Tidy.of_find? (h : e.Tidy table s) {m : ModuleRecord} {q : Query} (hq : (e.policy.decide q).isIncluded = true)
    (hid : m.identity = q.identity) (hk : s.cache.find? m.identity = some m) : m.IsOf table ∧ m.file.path.IsPlain := by
  refine h.kept m (List.mem_of_find?_eq_some hk) ?_
  obtain ⟨reason, hreason⟩ : ∃ reason, e.policy.decide q = .included reason := by
    cases hd : e.policy.decide q with
    | included reason => exact ⟨reason, rfl⟩
    | _ =>
      rw [hd] at hq
      cases hq
  rw [show m.name = q.name from congrArg Identity.name hid]
  exact name_ne_main_of_stands ⟨q, rfl, hreason⟩

/-! ## One item -/

/-- A path where no module is admitted opens nothing. -/
theorem opens_of_not_admits {path : Path} {package : Option ModuleName}
    (hnot : ∀ q, e.tree.query? path package = some q → ¬ e.Admits table q) :
    e.Opens table (.single path package) [] ∧
      ∀ q, e.tree.query? path package = some q → e.Admits table q → s.Keeps q.identity := by
  constructor
  · exact .nothing fun q hq ha => absurd ha (hnot q hq)
  · exact fun q hq ha => absurd ha (hnot q hq)

/-- What a module leaves that a path asks about is what the path opens. -/
theorem Registered.opens {path : Path} {package : Option ModuleName} {q : Query} {m : ModuleRecord}
    {children : List WalkItem} (hq : e.tree.query? path package = some q) (ha : e.Admits table q)
    (habs : q.file.path.isAbsolute = true) (hid : m.identity = q.identity) (hof : m.IsOf table)
    (hplain : m.file.path.IsPlain) (hm : e.Registered m children) : e.Opens table (.single path package) children := by
  obtain ⟨row, hrow, _, hpackage⟩ := hof
  have hname : m.name = q.name := congrArg Identity.name hid
  have hplace : m.file.place = q.file.place := congrArg Identity.place hid
  rw [hname] at hrow
  rcases hm with ⟨hno, rfl⟩ | ⟨hyes, names, hl, rfl⟩
  · refine .nothing fun q' hq' _ ⟨row', hrow', hp⟩ => ?_
    obtain rfl : q = q' := Option.some.inj (hq.symm.trans hq')
    obtain rfl : row = row' := Option.some.inj (hrow.symm.trans hrow')
    rw [hpackage, hp] at hno
    cases hno
  · -- the file of the module may be another one than that of the query, but it leads from the root as well
    have hroot := ModuleFile.root_mem_place habs
    rw [← hplace] at hroot
    have hmabs := ModuleFile.isAbsolute_of_root_mem_place hroot
    rw [hname]
    exact .package hq ha ⟨row, hrow, hpackage ▸ hyes⟩ (ModuleFile.isPlain_identity hplain hmabs)
      (ModuleFile.isAbsolute_identity hmabs) hplace hl

/-- What walking a path has come to: the path opens what is left, and its module is kept if it is admitted. -/
theorem Visited.opens (he : e.IsOver table) (ht : e.tree.IsWellFormed) {path : Path} {package : Option ModuleName}
    (hpath : path.rootText = "/") {children : List WalkItem} (hs : e.Tidy table s) (h : e.Visited path package children s) :
    e.Opens table (.single path package) children ∧
      ∀ q, e.tree.query? path package = some q → e.Admits table q → s.Keeps q.identity := by
  cases h with
  | nothing hq =>
    refine opens_of_not_admits fun q hq' => ?_
    rw [hq] at hq'
    cases hq'
  | @denied _ q d hq hd hno =>
    refine opens_of_not_admits fun q' hq' ⟨hinc, _⟩ => ?_
    obtain rfl : q = q' := Option.some.inj (hq.symm.trans hq')
    rw [he.decide_of_stands hd, hno] at hinc
    cases hinc
  | @passedOver _ s₀ s₁ q r hq hr hc =>
    refine opens_of_not_admits fun q' hq' ⟨_, hbuilds⟩ => ?_
    obtain rfl : q = q' := Option.some.inj (hq.symm.trans hq')
    rw [← hr.1] at hbuilds
    exact hc.not_builds he hbuilds
  | @registered _ s₀ s₁ q reason r m _ hq hd hr hc hk hm =>
    have hinc := he.isIncluded_of_stands hd
    have hid : m.identity = q.identity := (hc.identity_eq he).trans hr.identity_eq
    obtain ⟨hof, hplain⟩ := hs.of_find? hinc hid hk
    constructor
    · have hname : m.name = q.name := congrArg Identity.name hid
      have ha : e.Admits table q := ⟨hinc, hname ▸ hof.builds⟩
      exact hm.opens hq ha (ht.file_of_query? hpath hq).1 hid hof hplain
    · intro q' hq' _
      obtain rfl : q = q' := Option.some.inj (hq.symm.trans hq')
      rw [← hid]
      exact Option.isSome_iff_exists.2 ⟨m, hk⟩

/-- Walking an item explores it, and leaves what it opens. -/
theorem expand_explores (he : e.IsOver table) (ht : e.tree.IsWellFormed) (hs : e.Tidy table s) {item : WalkItem}
    (hitem : item.IsPlain) :
    Leads e (Action.Explores e table [item]) (e.expand item) s fun children s' => e.Opens table item children ∧
      ∀ path package q, item = .single path package → e.tree.query? path package = some q → e.Admits table q →
        s'.Keeps q.identity := by
  cases item with
  | single path package =>
    have hpath : path.rootText = "/" := hitem
    have hvisits : ∀ a, Action.Visits e (e.tree.query? path package) a → a.Explores e table [.single path package] := by
      intro a ha
      cases a with
      | fetched r =>
        obtain ⟨q, reason, hq, hr, hd⟩ := ha
        have hinc := he.isIncluded_of_stands hd
        refine ⟨?_, q, hr, hinc, fun hb => ⟨_, List.mem_singleton.2 rfl, .here hq ⟨hinc, hb⟩⟩⟩
        rw [hr.2.1]
        exact (ht.file_of_query? hpath hq).2
      | recursed => exact ha.elim
      | _ => trivial
    refine ((walkSingle_leads hs.remembers path package).mono hvisits).weaken fun children s' hm h => ?_
    obtain ⟨hopens, hkeeps⟩ := h.opens he ht hpath (hs.moves he hm)
    refine ⟨hopens, ?_⟩
    rintro _ _ q ⟨⟩ hq ha
    exact hkeeps q hq ha
  | path path package =>
    exact (walkPath_leads path package trivial).weaken fun _ _ _ h => ⟨.path h, fun _ _ _ h => nomatch h⟩
  | pattern text =>
    exact (walkPattern_leads text trivial).weaken fun _ _ _ h => ⟨.pattern h, fun _ _ _ h => nomatch h⟩

/-! ## Whole walks -/

/-- Walking the items on a stack explores them; if the stack is not too heavy, all modules that they lead to are kept. -/
theorem walkStack_explores (he : e.IsOver table) (ht : e.tree.IsWellFormed) (bound : Nat) (hs : e.Tidy table s)
    (hitems : ∀ item ∈ items, item.IsPlain ∧ item.isSingle = true) :
    Leads e (Action.Explores e table items) (e.walkStack bound items) s fun _ s' =>
      (items.map e.tree.weight).sum ≤ bound → ∀ item ∈ items, ∀ q, e.Reaches table item q → s'.Keeps q.identity := by
  induction bound generalizing items s with
  | zero =>
    cases items with
    | nil => exact .pure fun _ item hmem => nomatch hmem
    | cons item rest => exact .throw _
  | succ bound ih =>
    cases items with
    | nil => exact .pure fun _ item hmem => nomatch hmem
    | cons item rest =>
      obtain ⟨hplain, hsingle⟩ := hitems item List.mem_cons_self
      have hself : ∀ i ∈ [item], ∀ q, e.Reaches table i q → ∃ item' ∈ item :: rest, e.Reaches table item' q :=
        fun i hi q hq => ⟨item, List.mem_cons_self, List.mem_singleton.1 hi ▸ hq⟩
      have hexpand := (expand_explores he ht hs hplain).mono fun a ha => ha.mono hself
      refine .bind hexpand fun children s₁ hm ⟨hopens, hhere⟩ => ?_
      have hchildren : ∀ child ∈ children ++ rest, child.IsPlain ∧ child.isSingle = true := by
        intro child hmem
        rcases List.mem_append.1 hmem with hmem | hmem
        · exact ⟨hopens.isPlain ht hplain child hmem, hopens.isSingle child hmem⟩
        · exact hitems child (List.mem_cons_of_mem item hmem)
      -- what a child leads to the item leads to
      have hinside : ∀ child ∈ children ++ rest, ∀ q, e.Reaches table child q →
          ∃ item' ∈ item :: rest, e.Reaches table item' q := by
        intro child hmem q hq
        rcases List.mem_append.1 hmem with hmem | hmem
        · exact ⟨item, List.mem_cons_self, .inside hopens hmem hq⟩
        · exact ⟨child, List.mem_cons_of_mem item hmem, hq⟩
      refine ((ih (hs.moves he hm) hchildren).mono fun a ha => ha.mono hinside).weaken fun _ s' hm' hall hbound => ?_
      have hlight : ((children ++ rest).map e.tree.weight).sum ≤ bound := by
        cases item with
        | single path package =>
          have := hopens.sum_weight_lt ht
          rw [List.map_append, List.sum_append]
          rw [List.map_cons, List.sum_cons] at hbound
          omega
        | _ => cases hsingle
      intro i hi q hq
      rcases List.mem_cons.1 hi with rfl | hi
      · cases hq with
        | here hq ha => exact hm'.keeps_mono (hhere _ _ _ rfl hq ha)
        | inside ho hc hr =>
          have hc' := ho.subset rfl (fun _ h => h) ht hopens hc
          exact hall hlight _ (List.mem_append_left rest hc') q hr
      · exact hall hlight i (List.mem_append_right children hi) q hq

/-- Walking an item explores it, and all modules that it leads to are kept. -/
theorem walk_explores (he : e.IsOver table) (ht : e.tree.IsWellFormed) (hs : e.Tidy table s) {item : WalkItem}
    (hitem : item.IsPlain) :
    Leads e (Action.Explores e table [item]) (e.walk item) s
      fun _ s' => ∀ q, e.Reaches table item q → s'.Keeps q.identity := by
  unfold walk
  refine .bind (expand_explores he ht hs hitem) fun children s₁ hm ⟨hopens, hhere⟩ => ?_
  have hchildren : ∀ child ∈ children, child.IsPlain ∧ child.isSingle = true := fun child hmem =>
    ⟨hopens.isPlain ht hitem child hmem, hopens.isSingle child hmem⟩
  have hinside : ∀ child ∈ children, ∀ q, e.Reaches table child q → ∃ item' ∈ [item], e.Reaches table item' q :=
    fun child hmem q hq => ⟨item, List.mem_singleton.2 rfl, .inside hopens hmem hq⟩
  refine ((walkStack_explores he ht _ (hs.moves he hm) hchildren).mono fun a ha => ha.mono hinside).weaken
    fun _ s' hm' hall q hq => ?_
  cases hq with
  | here hq ha => exact hm'.keeps_mono (hhere _ _ _ rfl hq ha)
  | inside ho hc hr => exact hall (e.tree.sum_weight_le children) _ (ho.subset rfl (fun _ h => h) ht hopens hc) q hr

/-! ## Operations -/

/-- Consuming modules of the table asks for plainly written files only. -/
theorem explores_of_consumes (he : e.IsOver table) (hasks : e.AsksPlainly table) {ms : List PendingModule}
    (hms : ∀ m ∈ ms, m.IsOf table) {a : Action} (ha : Action.Consumes e ms a) : a.Explores e table items := by
  obtain ⟨m, hmem, ha⟩ := ha
  cases a with
  | recursed r signalled =>
    obtain ⟨_, q, _, hq, ⟨_, hfile, _⟩, _⟩ := ha
    have hplain := hasks m.record.name q ((he.asks_iff (hms m hmem)).1 hq)
    rwa [← hfile] at hplain
  | fetched => exact ha.elim
  | _ => trivial

/-- A pass only explores. -/
theorem runPass_explores (he : e.IsOver table) (hasks : e.AsksPlainly table) (hs : e.Tidy table s) :
    Leads e (Action.Explores e table items) e.runPass s fun _ _ => True :=
  runPass_leads hs.remembers trivial fun _ ha => explores_of_consumes he hasks hs.pending ha

/-- A run to the fixed point only explores. -/
theorem runToFixedPoint_explores (he : e.IsOver table) (hasks : e.AsksPlainly table) (bound : Nat) (hs : e.Tidy table s) :
    Leads e (Action.Explores e table items) (e.runToFixedPoint bound) s fun _ _ => True :=
  runToFixedPoint_leads (fun _ _ hm hs => hs.moves he hm) (fun _ hs => runPass_explores he hasks hs) trivial bound hs

/-- Walking one item after the other explores all of them. -/
theorem walks_explore (he : e.IsOver table) (ht : e.tree.IsWellFormed) (hs : e.Tidy table s) {α : Type} {xs : List α}
    {f : α → WalkItem} (hxs : ∀ x ∈ xs, f x ∈ items ∧ (f x).IsPlain) :
    Leads e (Action.Explores e table items) (xs.forM fun x => e.walk (f x)) s fun _ s' =>
      ∀ x ∈ xs, ∀ q, e.Reaches table (f x) q → s'.Keeps q.identity := by
  refine .forM_of_keeps (I := e.Tidy table) (fun _ _ hm hs => hs.moves he hm) hs ?_ ?_
  · intro x hx s hs
    obtain ⟨hmem, hplain⟩ := hxs x hx
    refine (walk_explores he ht hs hplain).mono fun a ha => ha.mono fun item hitem q hq => ?_
    exact ⟨f x, hmem, List.mem_singleton.1 hitem ▸ hq⟩
  · intro x s s' hm h q hq
    exact hm.keeps_mono (h q hq)

/-- An action obtains only what the items lead to. -/
theorem obtained_of_move (he : e.IsOver table) (hs : e.Tidy table s) (ha : a.Explores e table items) (hm : Move e a s s')
    {i : Identity} (hi : i ∈ s'.obtained) :
    i ∈ s.obtained ∨ ∃ item ∈ items, ∃ q, e.Reaches table item q ∧ q.identity = i := by
  cases a with
  | fetched r =>
    obtain ⟨_, q, hr, hinc, hreaches⟩ := ha
    -- what is obtained can be built, whether it is kept already or comes in
    have hnew : table.Builds r.name → s'.obtained = r.identity :: s.obtained →
        i ∈ s.obtained ∨ ∃ item ∈ items, ∃ q, e.Reaches table item q ∧ q.identity = i := by
      intro hb ho
      rw [ho] at hi
      rcases List.mem_cons.1 hi with rfl | hi
      · obtain ⟨item, hitem, hq⟩ := hreaches (hr.1 ▸ hb)
        exact Or.inr ⟨item, hitem, q, hq, hr.identity_eq.symm⟩
      · exact Or.inl hi
    rcases Engine.same_or_gains_of_fetched hm with ⟨_, ho | ⟨hk, ho⟩⟩ | ⟨o, ho, _, _, hobt⟩
    · exact Or.inl (ho ▸ hi)
    · obtain ⟨m, hm⟩ := Option.isSome_iff_exists.1 hk
      have hid := Cache.identity_of_find? hm
      have hname : m.name = r.name := congrArg Identity.name hid
      obtain ⟨hof, _⟩ := hs.of_find? hinc (hid.trans hr.identity_eq) (hid ▸ hm)
      exact hnew (hname ▸ hof.builds) ho
    · rw [he.builder] at ho
      have hid : o.record.identity = r.identity := Builder.identity_of_ofTable ho
      obtain ⟨row, hrow, hb, _⟩ := Builder.result_ofTable_iff.1 ho
      exact hnew ⟨row, hrow, hb⟩ (hid ▸ hobt)
  | recursed r signalled =>
    obtain ⟨_, hc⟩ := hm.recursed
    exact Or.inl (hc.obtained_eq ▸ hi)
  | entered path =>
    obtain ⟨_, hc⟩ := hm.entered
    exact Or.inl (hc.obtained_eq ▸ hi)
  | drained =>
    cases hm
    exact Or.inl hi
  | _ => exact Or.inl ((hm.alike rfl).obtained_eq ▸ hi)

/-- Only what the items lead to is obtained. -/
theorem obtained_of_explores (he : e.IsOver table) (hs : e.Tidy table s) (hm : Moves e (Action.Explores e table items) s s')
    {i : Identity} (hi : i ∈ s'.obtained) :
    i ∈ s.obtained ∨ ∃ item ∈ items, ∃ q, e.Reaches table item q ∧ q.identity = i := by
  have hkeeps := hm.keeps (P := fun s' => e.Tidy table s' ∧ ∀ i ∈ s'.obtained, i ∈ s.obtained ∨
    ∃ item ∈ items, ∃ q, e.Reaches table item q ∧ q.identity = i) ?_ ⟨hs, fun _ hi => Or.inl hi⟩
  · exact hkeeps.2 i hi
  · rintro a s₁ s₂ ha hmove ⟨hs₁, hold⟩
    refine ⟨hs₁.move he ha hmove, fun i hi => ?_⟩
    exact (obtained_of_move he hs₁ ha hmove hi).elim (hold i) Or.inr

end Engine

/-- The entry, a walk or a pass explores what it walks, and all modules that it leads to are kept. -/
theorem Operation.perform_explores (he : e.IsOver table) (ht : e.tree.IsWellFormed) (hasks : e.AsksPlainly table)
    (op : Operation) (hop : op.isEntry || op.isWalk || op.isPass) (hitems : ∀ item ∈ op.items, item.IsPlain)
    (hs : e.Tidy table s) :
    Leads e (Action.Explores e table op.items) (op.perform e) s fun _ s' =>
      ∀ item ∈ op.items, ∀ q, e.Reaches table item q → s'.Keeps q.identity := by
  have hnone : ∀ s' : Session (List BuildRequest), ∀ item ∈ ([] : List WalkItem), ∀ q, e.Reaches table item q →
      s'.Keeps q.identity := fun _ item hmem => nomatch hmem
  cases op with
  | addEntry path =>
    have hx : Leads e (Action.Explores e table []) (e.addEntry path) s fun _ _ => True :=
      ⟨.single (.entered path) trivial rfl, fun _ _ _ => trivial⟩
    exact .bind hx fun _ _ _ _ => .pure (hnone _)
  | walk item =>
    refine (Engine.walk_explores he ht hs (hitems item List.mem_cons_self)).weaken fun _ s' _ h i hi => ?_
    rw [List.mem_singleton.1 hi]
    exact h
  | seed includes base =>
    have hpaths : ∀ p ∈ includes.paths, WalkItem.path (base.join ⟨p⟩) none ∈ (Operation.seed includes base).items :=
      fun p hp => List.mem_append_left _ (List.mem_map_of_mem hp)
    have hpatterns : ∀ p ∈ includes.patterns,
        WalkItem.pattern (base.join ⟨p⟩).text ∈ (Operation.seed includes base).items :=
      fun p hp => List.mem_append_right _ (List.mem_map_of_mem hp)
    refine .bind (Engine.walks_explore he ht hs fun p hp => ⟨hpaths p hp, hitems _ (hpaths p hp)⟩) fun _ s₁ hm h₁ => ?_
    refine (Engine.walks_explore he ht (hs.moves he hm) fun p hp => ⟨hpatterns p hp, hitems _ (hpatterns p hp)⟩).weaken
      fun _ s₂ hm' h₂ item hitem q hq => ?_
    rcases List.mem_append.1 hitem with hitem | hitem
    · obtain ⟨p, hp, rfl⟩ := List.mem_map.1 hitem
      exact hm'.keeps_mono (h₁ p hp q hq)
    · obtain ⟨p, hp, rfl⟩ := List.mem_map.1 hitem
      exact h₂ p hp q hq
  | pass => exact .bind (Engine.runPass_explores he hasks hs) fun _ _ _ _ => .pure (hnone _)
  | run bound => exact .bind (Engine.runToFixedPoint_explores he hasks bound hs) fun _ _ _ _ => .pure (hnone _)
  | _ => cases hop

/-- Operations of these kinds explore what they walk, and all modules that it leads to are kept. -/
theorem Engine.performAll_explores (he : e.IsOver table) (ht : e.tree.IsWellFormed) (hasks : e.AsksPlainly table)
    {ops : List Operation} (hops : ∀ op ∈ ops, op.isEntry || op.isWalk || op.isPass)
    (hitems : ∀ op ∈ ops, ∀ item ∈ op.items, item.IsPlain) (hs : e.Tidy table s) :
    Leads e (Action.Explores e table (ops.flatMap Operation.items)) (e.performAll ops) s fun _ s' =>
      ∀ op ∈ ops, ∀ item ∈ op.items, ∀ q, e.Reaches table item q → s'.Keeps q.identity := by
  refine .forM_of_keeps (I := e.Tidy table) (fun _ _ hm hs => hs.moves he hm) hs ?_ ?_
  · intro op hop s hs
    refine (op.perform_explores he ht hasks (hops op hop) (hitems op hop) hs).mono fun a ha => ha.mono ?_
    intro item hitem q hq
    exact ⟨item, List.mem_flatMap.2 ⟨op, hop, hitem⟩, hq⟩
  · intro op s s' hm h item hitem q hq
    exact hm.keeps_mono (h item hitem q hq)

end Table

end ImportClosure
