import ImportClosure.Proofs.LeastClosure
import ImportClosure.Proofs.Once
import Mathlib.Algebra.BigOperators.Group.List.Basic

/-!
# Passes are levels

Over a table in which nothing is prebuilt, a run is a breadth-first search: after `n` passes the modules that are kept
are those within distance `n` of the ones that were kept before (`InRun.level_runPass`), so each pass counts the modules at
its distance (`passes_eq_levels`).
-/

namespace ImportClosure

open Step

namespace Engine

/-- A module is reached from a set by a chain of so many links, in each of which one module brings in the next. -/
inductive ReachedIn (e : Engine (List BuildRequest)) (table : ModuleTable) (start : Set Identity) :
    Nat → Identity → Prop where
  | start {i : Identity} (h : i ∈ start) : ReachedIn e table start 0 i
  | link {n : Nat} {i j : Identity} (h : ReachedIn e table start n i) (hb : e.Brings table i j) :
      ReachedIn e table start (n + 1) j

/-- The shortest chain from a set to a module has this length. -/
def AtDistance (e : Engine (List BuildRequest)) (table : ModuleTable) (start : Set Identity) (n : Nat) (j : Identity) :
    Prop :=
  e.ReachedIn table start n j ∧ ∀ m < n, ¬ e.ReachedIn table start m j

/-- A module is reached by a chain of at most so many links. -/
def ReachedWithin (e : Engine (List BuildRequest)) (table : ModuleTable) (start : Set Identity) (n : Nat)
    (j : Identity) : Prop :=
  ∃ m ≤ n, e.ReachedIn table start m j

/-- The modules that the table's modules import, literally or by a plugin's word. -/
def edgeTargets (e : Engine (List BuildRequest)) (table : ModuleTable) : Set Identity :=
  {j | ∃ name row q, table.lookup name = some row ∧ e.Targets table name q ∧ q.identity = j}

variable {e : Engine (List BuildRequest)} {table : ModuleTable} {start : Set Identity} {n : Nat} {i j : Identity}

/-- Within no step nothing is reached but the start. -/
theorem reachedWithin_zero : e.ReachedWithin table start 0 j ↔ j ∈ start := by
  constructor
  · rintro ⟨m, hm, h⟩
    obtain rfl := Nat.le_zero.1 hm
    cases h
    assumption
  · exact fun h => ⟨0, Nat.le_refl 0, .start h⟩

/-- One more link leads to what is brought in. -/
theorem reachedWithin_succ : e.ReachedWithin table start (n + 1) j ↔
    e.ReachedWithin table start n j ∨ ∃ i, e.ReachedWithin table start n i ∧ e.Brings table i j := by
  constructor
  · rintro ⟨m, hm, h⟩
    cases h with
    | start h => exact Or.inl ⟨0, Nat.zero_le n, .start h⟩
    | link h hb => exact Or.inr ⟨_, ⟨_, Nat.le_of_succ_le_succ hm, h⟩, hb⟩
  · rintro (⟨m, hm, h⟩ | ⟨i, ⟨m, hm, h⟩, hb⟩)
    · exact ⟨m, Nat.le_succ_of_le hm, h⟩
    · exact ⟨m + 1, Nat.succ_le_succ hm, .link h hb⟩

/-- What is reached with one more link only is at this distance. -/
theorem atDistance_succ : e.AtDistance table start (n + 1) j ↔
    e.ReachedWithin table start (n + 1) j ∧ ¬ e.ReachedWithin table start n j := by
  constructor
  · rintro ⟨h, hmin⟩
    exact ⟨⟨n + 1, Nat.le_refl _, h⟩, fun ⟨m, hm, h'⟩ => hmin m (Nat.lt_succ_of_le hm) h'⟩
  · rintro ⟨⟨m, hm, h⟩, hno⟩
    have hm' : m = n + 1 := by
      rcases Nat.lt_or_eq_of_le hm with hlt | heq
      · exact absurd ⟨m, Nat.le_of_lt_succ hlt, h⟩ hno
      · exact heq
    subst hm'
    exact ⟨h, fun m hm h' => hno ⟨m, Nat.le_of_lt_succ hm, h'⟩⟩

/-- A module whose imports are looked up in a table brings in only what the table's modules import. -/
theorem mem_edgeTargets_of_brings (hi : ∃ row, table.lookup i.name = some row) (h : e.Brings table i j) :
    j ∈ e.edgeTargets table := by
  obtain ⟨row, hrow⟩ := hi
  obtain ⟨q, hq, hj, _⟩ := h
  exact ⟨i.name, row, q, hrow, hq, hj⟩

/-- The imports that the plugins declare for the modules of a name. -/
def declaredFor (e : Engine (List BuildRequest)) (name : ModuleName) : List Query :=
  match e.policy.plugins.implicitImports { name, file := default, kind := default } with
  | .ok imports => imports.filterMap ImplicitImport.query?
  | .error _ => []

/-- There are only so many modules that the table's modules import. -/
theorem IsOver.finite_edgeTargets (he : e.IsOver table) : (e.edgeTargets table).Finite := by
  refine (List.finite_toSet (table.flatMap fun entry =>
    (entry.2.uses.filterMap ImportEdge.query? ++ e.declaredFor entry.1).map Query.identity)).subset ?_
  rintro j ⟨name, row, q, hrow, hq, rfl⟩
  have hmem : (name, row) ∈ table := by
    obtain ⟨l₁, l₂, rfl, _⟩ := List.lookup_eq_some_iff.1 hrow
    simp
  refine List.mem_flatMap.2 ⟨_, hmem, List.mem_map_of_mem (List.mem_append.2 ?_)⟩
  rcases hq with ⟨row', hrow', hq⟩ | ⟨m, imports, hname, himports, hq⟩
  · obtain rfl := Option.some.inj (hrow.symm.trans hrow')
    exact Or.inl hq
  · rw [he.plugins.implicitImports m { name, file := default, kind := default } hname] at himports
    right
    rw [declaredFor, himports]
    exact hq

end Engine

/-! ## Passes over a table without prebuilt modules -/

/-- Building a module of the table is always news. -/
def ModuleTable.AllNew (table : ModuleTable) : Prop :=
  ∀ name row, table.lookup name = some row → row.prebuilt = false

/-- In a table in which no row is prebuilt every build is news. -/
theorem ModuleTable.allNew_of_all {table : ModuleTable} (h : (table.all fun entry => !entry.2.prebuilt) = true) :
    table.AllNew := by
  intro name row hrow
  obtain ⟨l₁, l₂, rfl, _⟩ := List.lookup_eq_some_iff.1 hrow
  simpa using List.all_eq_true.1 h (name, row) (by simp)

section Run

variable {e : Engine (List BuildRequest)} {table : ModuleTable} {entry : Identity}
  {s s' : Session (List BuildRequest)}

/-- What holds from the start to the end of a run, whatever has been consumed. -/
structure InRun (e : Engine (List BuildRequest)) (table : ModuleTable) (entry : Identity)
    (s : Session (List BuildRequest)) : Prop where
  remembers : e.Remembers s
  tracked : Tracked e table entry (fun _ => False) s
  once : Once e (fun _ _ => True) s

namespace InRun

/-- A table builds no module twice under one identity. -/
theorem buildsOnce (he : e.IsOver table) : e.builder.BuildsOnce fun _ _ => True := by
  rw [he.builder]
  exact Builder.buildsOnce_ofTable table

/-- Walks leave a session in its run. -/
theorem move_of_walks (he : e.IsOver table) (h : InRun e table entry s) {a : Action} (ha : Action.Walks e a)
    (hm : Move e a s s') : InRun e table entry s' := by
  refine ⟨h.remembers.move hm, h.tracked.move_of_walks he ha hm, h.once.move (buildsOnce he) (fun path hp => ?_) hm⟩
  subst hp
  exact ha

/-- A pass leaves a session in its run. -/
theorem runPass (he : e.IsOver table) (h : InRun e table entry s) {c : Nat} (hpass : ends e.runPass s = (.ok c, s')) :
    InRun e table entry s' := by
  refine ⟨h.remembers.runPass hpass, h.tracked.runPass he h.remembers hpass, ?_⟩
  have hmoves := (Engine.runPass_sanctioned h.remembers).1
  rw [hpass] at hmoves
  refine hmoves.keeps (fun a s s' ha hm h => h.move (buildsOnce he) (fun path hp => ?_) hm) h.once
  subst hp
  exact ha

/-- The entry may be built as long as no module runs under its name. -/
theorem entered (he : e.IsOver table) {path : Path} (h : InRun e table (e.entryBuild path).identity s)
    (hmain : s.NoMain) {m : ModuleRecord} (hm : ends (e.addEntry path) s = (.ok m, s')) :
    InRun e table (e.entryBuild path).identity s' ∧ (e.entryBuild path).identity ∈ s'.pushes := by
  have hentered := Engine.entered_of_ends hm
  have hremembers : e.Remembers s' := h.remembers.move (a := .entered path) (congrArg Prod.snd hm).symm
  obtain ⟨htracked, hin⟩ := h.tracked.entered he rfl hentered
  exact ⟨⟨hremembers, htracked, h.once.entered (buildsOnce he) hmain hentered⟩, hin⟩

/-- Over such a table what is kept was queued. -/
theorem keeps_iff (hnew : table.AllNew) (h : InRun e table entry s) (i : Identity) : s.Keeps i ↔ i ∈ s.pushes := by
  constructor
  · intro hi
    obtain ⟨row, hrow⟩ := h.tracked.rows i hi
    exact h.tracked.expanded i row hi hrow (hnew _ _ hrow)
  · exact fun hi => (h.tracked.pushed i hi).1

/-- What a pass queues was not kept before it. -/
theorem mem_queue_iff (he : e.IsOver table) (hnew : table.AllNew) (h : InRun e table entry s) {c : Nat}
    (hpass : ends e.runPass s = (.ok c, s')) (j : Identity) : j ∈ s'.queue ↔ s'.Keeps j ∧ ¬ s.Keeps j := by
  have h' := h.runPass he hpass
  have hgrown := (Engine.grownSince_of_runPass h.remembers hpass).1.pushes
  have hnodup := h'.once.pushes.1
  rw [hgrown, List.nodup_append] at hnodup
  rw [h'.keeps_iff hnew, h.keeps_iff hnew, hgrown, List.mem_append, List.mem_reverse]
  constructor
  · exact fun hj => ⟨Or.inl hj, fun hold => hnodup.2.2 j (List.mem_reverse.2 hj) j hold rfl⟩
  · exact fun ⟨hj, hold⟩ => hj.resolve_right hold

/-- After a pass exactly those modules are kept that were kept before or that one of these brings in. -/
theorem keeps_runPass (he : e.IsOver table) (hnew : table.AllNew) (h : InRun e table entry s) {c : Nat}
    (hpass : ends e.runPass s = (.ok c, s')) (j : Identity) :
    s'.Keeps j ↔ s.Keeps j ∨ ∃ i, s.Keeps i ∧ e.Brings table i j := by
  have h' := h.runPass he hpass
  obtain ⟨hmoves, _, _⟩ := Engine.moves_of_runPass h.remembers hpass
  constructor
  · have hms : ∀ m ∈ s.pending, m.IsOf table := fun m hm => (h.tracked.pending m hm).1
    refine hmoves.keeps (P := fun s' => s'.Keeps j → s.Keeps j ∨ ∃ i, s.Keeps i ∧ e.Brings table i j)
      (fun a s₁ s₂ ha hm hj hj₂ => ?_) Or.inl
    rcases he.gains_of_consumes hms ha hm with hs | ⟨m, hmem, n, row, hbrings, _, _, _, hg⟩
    · exact hj ((hs.keeps j).1 hj₂)
    · rcases (hg.keeps j).1 hj₂ with hj₁ | rfl
      · exact hj hj₁
      · exact Or.inr ⟨_, (h.tracked.pushed _ (h.tracked.pending m hmem).2).1, hbrings⟩
  · rintro (hj | ⟨i, hi, hb⟩)
    · exact hmoves.keeps_mono (s := { s with pending := [] }) hj
    · have hpushed : i ∈ s'.pushes := (h'.keeps_iff hnew i).1 (hmoves.keeps_mono (s := { s with pending := [] }) hi)
      -- the module was kept before the pass, so it is not among those that the pass has queued
      rcases h'.tracked.settled i hpushed with hbusy | hqueue | hall
      · exact hbusy.elim
      · exact absurd hi ((h.mem_queue_iff he hnew hpass i).1 hqueue).2
      · exact hall j hb

/-- A pass goes one level further and counts the modules there. -/
theorem level_runPass (he : e.IsOver table) (hnew : table.AllNew) (h : InRun e table entry s) {c : Nat}
    (hpass : ends e.runPass s = (.ok c, s')) {start : Set Identity} {n : Nat}
    (hlevel : ∀ j, s.Keeps j ↔ e.ReachedWithin table start n j) :
    {j | e.AtDistance table start (n + 1) j}.encard = c ∧
      ∀ j, s'.Keeps j ↔ e.ReachedWithin table start (n + 1) j := by
  have hnext : ∀ j, s'.Keeps j ↔ e.ReachedWithin table start (n + 1) j := by
    intro j
    rw [h.keeps_runPass he hnew hpass, Engine.reachedWithin_succ, hlevel]
    simp only [hlevel]
  refine ⟨?_, hnext⟩
  obtain ⟨hgrown, hc⟩ := Engine.grownSince_of_runPass h.remembers hpass
  have hnodup : s'.queue.Nodup := by
    have hall := (h.runPass he hpass).once.pushes.1
    rw [hgrown.pushes, List.nodup_append, List.nodup_reverse] at hall
    exact hall.1
  have hset : {j | e.AtDistance table start (n + 1) j} = ↑s'.queue.toFinset := by
    ext j
    simp only [Set.mem_ofPred_eq, Engine.atDistance_succ, List.coe_toFinset, ← hnext, ← hlevel,
      h.mem_queue_iff he hnew hpass]
  rw [hset, Set.encard_coe_eq_coe_finsetCard, List.toFinset_card_of_nodup hnodup, hc]

/-- Every pass of a run counts the modules at its distance. -/
theorem encard_of_passes (he : e.IsOver table) (hnew : table.AllNew) (h : InRun e table entry s) {counts : List Nat}
    (hpasses : e.Passes s counts s') {start : Set Identity} {n : Nat}
    (hlevel : ∀ j, s.Keeps j ↔ e.ReachedWithin table start n j) (k : Nat) (hk : k < counts.length) :
    {j | e.AtDistance table start (n + k + 1) j}.encard = counts[k] := by
  induction hpasses generalizing n k with
  | last hpass _ =>
    obtain rfl : k = 0 := by simpa using hk
    exact (h.level_runPass he hnew hpass hlevel).1
  | more hpass _ _ ih =>
    obtain ⟨hcount, hnext⟩ := h.level_runPass he hnew hpass hlevel
    cases k with
    | zero => exact hcount
    | succ k =>
      have hrest := ih (h.runPass he hpass) hnext k (by simpa using hk)
      rw [show n + (k + 1) + 1 = n + 1 + k + 1 by omega]
      exact hrest

end InRun

/-! ## What a run signals -/

/-- Since a run began only modules that the table's modules import were signalled, and no others were queued. -/
structure Since (e : Engine (List BuildRequest)) (table : ModuleTable) (entry : Identity) (queued : Nat)
    (s : Session (List BuildRequest)) : Prop where
  inRun : InRun e table entry s
  targets : ∀ j ∈ s.signals, j ∈ e.edgeTargets table
  length_pushes : s.pushes.length = queued + s.signals.length

namespace Since

variable {queued : Nat}

/-- A pass signals only modules that are imported, one for each that it queues. -/
theorem runPass (he : e.IsOver table) (hnew : table.AllNew) (h : Since e table entry queued s) {c : Nat}
    (hpass : ends e.runPass s = (.ok c, s')) : Since e table entry queued s' := by
  obtain ⟨hgrown, _⟩ := Engine.grownSince_of_runPass h.inRun.remembers hpass
  refine ⟨h.inRun.runPass he hpass, fun j hj => ?_, ?_⟩
  · rw [hgrown.signals] at hj
    rcases List.mem_append.1 hj with hj | hj
    · exact h.targets j hj
    · obtain ⟨hkept, hno⟩ := (h.inRun.mem_queue_iff he hnew hpass j).1 hj
      obtain ⟨i, hi, hb⟩ := ((h.inRun.keeps_runPass he hnew hpass j).1 hkept).resolve_left hno
      exact Engine.mem_edgeTargets_of_brings (h.inRun.tracked.rows i hi) hb
  · rw [hgrown.pushes, hgrown.signals, List.length_append, List.length_append, List.length_reverse, h.length_pushes]
    omega

/-- There are no more signals than modules that are imported. -/
theorem length_signals_le (he : e.IsOver table) (h : Since e table entry queued s) :
    s.signals.length ≤ (e.edgeTargets table).ncard :=
  h.inRun.once.signals.length_le_ncard he.finite_edgeTargets h.targets

end Since

/-! ## The session before the run -/

/-- Walking signals nothing. -/
theorem signals_of_walks {a : Action} (ha : Action.Walks e a) (hm : Move e a s s') : s'.signals = s.signals := by
  cases a with
  | fetched r =>
    rcases Engine.same_or_gains_of_fetched hm with ⟨hs, _⟩ | ⟨o, _, _, hg, _⟩
    · exact hs.signals
    · simpa using hg.signals
  | remarked | rooted | decided => exact (hm.alike rfl).same.signals
  | _ => exact ha.elim

/-- What holds while nothing has been consumed. -/
structure BeforeRun (e : Engine (List BuildRequest)) (table : ModuleTable) (entry : Identity)
    (s : Session (List BuildRequest)) : Prop where
  inRun : InRun e table entry s
  signals_eq : s.signals = []

namespace BeforeRun

/-- In a session in which nothing has happened nothing was consumed. -/
theorem fresh (e : Engine (List BuildRequest)) (table : ModuleTable) (entry : Identity) :
    BeforeRun e table entry (.fresh []) where
  inRun := ⟨.of_nil rfl, .fresh e table entry [], .fresh trivial⟩
  signals_eq := rfl

/-- Walks consume nothing. -/
theorem move_of_walks (he : e.IsOver table) (h : BeforeRun e table entry s) {a : Action} (ha : Action.Walks e a)
    (hm : Move e a s s') : BeforeRun e table entry s' where
  inRun := h.inRun.move_of_walks he ha hm
  signals_eq := (signals_of_walks ha hm).trans h.signals_eq

/-- Building the entry is no news in the log. -/
theorem entered (he : e.IsOver table) {path : Path} (h : BeforeRun e table (e.entryBuild path).identity s)
    (hmain : s.NoMain) {m : ModuleRecord} (hm : ends (e.addEntry path) s = (.ok m, s')) :
    BeforeRun e table (e.entryBuild path).identity s' := by
  refine ⟨(h.inRun.entered he hmain hm).1, ?_⟩
  rcases (Engine.entered_of_ends hm).same_or_gains with ⟨_, hno⟩ | ⟨o, _, hg⟩
  · exact absurd rfl (hno m)
  · simpa [h.signals_eq] using hg.signals

/-- Walks and one building of the entry come to this, if all of them succeed. -/
theorem of_performAll (he : e.IsOver table) {path : Path} {ops : List Operation}
    (hentry : ops.filter Operation.isEntry = [.addEntry path]) (hops : ∀ op ∈ ops, op.isEntry || op.isWalk)
    (hrun : ends (e.performAll ops) (.fresh []) = (.ok (), s)) : BeforeRun e table (e.entryBuild path).identity s := by
  obtain ⟨before, behind, m, s₁, s₂, hmem, h₁, h₂, h₃⟩ := Engine.exists_entered_of_performAll hentry hrun
  have hkind : ∀ op ∈ before ++ behind, op.isWalk = true := by
    intro op hop
    simpa [(hmem op hop).2] using hops op (hmem op hop).1
  have hfresh : BeforeRun e table (e.entryBuild path).identity (.fresh []) := .fresh e table _
  obtain ⟨hs₁, hmain⟩ : BeforeRun e table (e.entryBuild path).identity s₁ ∧ s₁.NoMain := by
    refine Engine.keeps_of_walks (P := fun s => BeforeRun e table (e.entryBuild path).identity s ∧ s.NoMain)
      hfresh.inRun.remembers ?_ (fun op hop => hkind op (List.mem_append_left _ hop)) h₁
      ⟨hfresh, Session.noMain_fresh []⟩
    intro a s s' ha hm h
    exact ⟨h.1.move_of_walks he ha hm, h.2.move (InRun.buildsOnce he) ha.sanctioned.sparesMain hm⟩
  have hs₂ := hs₁.entered he hmain h₂
  exact Engine.keeps_of_walks hs₂.inRun.remembers (fun _ _ _ ha hm h => h.move_of_walks he ha hm)
    (fun op hop => hkind op (List.mem_append_right _ hop)) h₃ hs₂

/-! ### The run behind it -/

/-- A run begins without signals. -/
theorem since (h : BeforeRun e table entry s) : Since e table entry s.pushes.length s :=
  ⟨h.inRun, by simp [h.signals_eq], by simp [h.signals_eq]⟩

/-- The run ends, as there are only so many modules that it can signal. -/
theorem runToFixedPoint_ne_none (he : e.IsOver table) (hnew : table.AllNew) (h : BeforeRun e table entry s)
    {bound : Nat} (hbound : (e.edgeTargets table).ncard < bound) :
    (ends (e.runToFixedPoint bound) s).1 ≠ .ok none := by
  apply Engine.runToFixedPoint_ne_none
  refine Engine.runPasses_ne_none (s.pushes.length + (e.edgeTargets table).ncard) (fun _ h => h.inRun.remembers)
    (fun _ _ _ hpass h => h.runPass he hnew hpass) (fun s' h' => ?_) h.since (by omega)
  have hle := h'.length_signals_le he
  rw [h'.length_pushes]
  omega

/-- The passes of the run add up to the whole log. -/
theorem sum_passes (h : BeforeRun e table entry s) {counts : List Nat} (hpasses : e.Passes s counts s') :
    counts.sum = s'.signals.length := by
  rw [hpasses.sum_eq h.inRun.remembers, h.signals_eq, List.length_nil, Nat.zero_add]

/-- There is at most one pass more than there are targets of edges. -/
theorem length_passes_le (he : e.IsOver table) (hnew : table.AllNew) (h : BeforeRun e table entry s) {counts : List Nat}
    (hpasses : e.Passes s counts s') : counts.length ≤ (e.edgeTargets table).ncard + 1 := by
  have hend : Since e table entry s.pushes.length s' :=
    hpasses.keeps (fun _ _ _ hpass h => h.runPass he hnew hpass) h.since
  have hle := hend.length_signals_le he
  have hsum := h.sum_passes hpasses
  obtain ⟨most, rfl, hpos⟩ := hpasses.exists_counts h.inRun.remembers
  have hlen := List.length_le_sum_of_one_le most hpos
  rw [List.sum_append, List.sum_singleton] at hsum
  rw [List.length_append, List.length_singleton]
  omega

end BeforeRun

end Run

/-- Over a table in which nothing is prebuilt, after walks and one building of the entry in any order, all of which
succeed, the run to the fixed point ends. If it ends with a report, the passes count the modules at the distances one,
two and so on from those that were kept before, so every pass but the last signals something, the last one nothing, and
all of them together the whole log; there is at most one pass more than there are targets of edges. After any pass that
succeeds the queue is as long as the pass says. -/
theorem passes_eq_levels {e : Engine (List BuildRequest)} {table : ModuleTable} (he : e.IsOver table)
    (hnew : table.AllNew) {path : Path} {ops : List Operation}
    (hentry : ops.filter Operation.isEntry = [.addEntry path]) (hops : ∀ op ∈ ops, op.isEntry || op.isWalk)
    {s : Session (List BuildRequest)} (hrun : ends (e.performAll ops) (.fresh []) = (.ok (), s)) :
    (∃ least, ∀ bound ≥ least, (ends (e.runToFixedPoint bound) s).1 ≠ .ok none) ∧
    (∀ bound report s', ends (e.runToFixedPoint bound) s = (.ok (some report), s') →
      (∀ k (hk : k < report.passes.length),
        {j | e.AtDistance table {i | s.Keeps i} (k + 1) j}.encard = report.passes[k]) ∧
      (∃ most, report.passes = most ++ [0] ∧ ∀ c ∈ most, 0 < c) ∧
      report.passes.sum = report.newCode.length ∧
      report.passes.length ≤ (e.edgeTargets table).ncard + 1) ∧
    (∀ (more : List Operation) (c : Nat) (s' : Session (List BuildRequest)),
      ends e.runPass (e.after more s) = (.ok c, s') → s'.pending.length = c) := by
  have hs := BeforeRun.of_performAll he hentry hops hrun
  refine ⟨⟨(e.edgeTargets table).ncard + 1, ?_⟩, ?_, ?_⟩
  · intro bound hbound
    exact hs.runToFixedPoint_ne_none he hnew hbound
  · intro bound report s' hfix
    obtain ⟨s₁, hpasses, rfl, hcode⟩ := Engine.passes_of_runToFixedPoint hfix
    refine ⟨?_, hpasses.exists_counts hs.inRun.remembers, ?_, hs.length_passes_le he hnew hpasses⟩
    · intro k hk
      have hlevel : ∀ j, s.Keeps j ↔ e.ReachedWithin table {i | s.Keeps i} 0 j := by
        intro j
        rw [Engine.reachedWithin_zero]
        rfl
      have hcount := hs.inRun.encard_of_passes he hnew hpasses hlevel k hk
      rwa [Nat.zero_add] at hcount
    · rw [hcode, hs.sum_passes hpasses, Session.signals, List.length_map]
  · intro more c s' hpass
    have hafter := hs.inRun.remembers.moves (e.moves_after hs.inRun.remembers more)
    rw [(Engine.grownSince_of_runPass hafter hpass).2, Session.queue, List.length_map]

/-- Behind a walk and the entry, the run over a diamond signals two modules, then two, then one, then nothing. -/
theorem passes_eq_levels_diamond :
    let e := (ModuleTable.diamond false).followed
    let ops : List Operation := [.walk (.path ⟨"extra.py"⟩ none), .addEntry ⟨"main.py"⟩]
    ∃ s, ends (e.performAll ops) (.fresh []) = (.ok (), s) ∧
      ∀ k (hk : k < 4),
        {j | e.AtDistance (.diamond false) {i | s.Keeps i} (k + 1) j}.encard = ([2, 2, 1, 0] : List Nat)[k] := by
  intro e ops
  obtain ⟨_, s, hrun⟩ : ∃ a s, ends (e.performAll ops) (.fresh []) = (.ok a, s) := exists_of_isOk (by decide +kernel)
  have hs : s = (ends (e.performAll ops) (.fresh [])).2 := by rw [hrun]
  have hpasses : (ends (e.runToFixedPoint 4) s).1.toOption.join.map Report.passes = some [2, 2, 1, 0] := by
    rw [hs]
    decide +kernel
  obtain ⟨report, s', hfix⟩ : ∃ report s', ends (e.runToFixedPoint 4) s = (.ok (some report), s') := by
    apply exists_of_isSome
    rw [← Option.isSome_map, hpasses]
    rfl
  obtain ⟨_, hlevels, _⟩ :=
    passes_eq_levels (ModuleTable.isOver_followed _) (ModuleTable.allNew_of_all (by decide)) rfl (by decide) hrun
  rw [hfix] at hpasses
  have hreport : report.passes = [2, 2, 1, 0] := by simpa [Except.toOption] using hpasses
  refine ⟨s, hrun, fun k hk => ?_⟩
  have hcount := (hlevels 4 report s' hfix).1 k (by rw [hreport]; exact hk)
  simpa only [hreport] using hcount

end ImportClosure
