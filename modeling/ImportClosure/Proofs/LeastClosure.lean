import ImportClosure.Proofs.Graph
import Mathlib.Order.Bounds.Basic

/-!
# The closure is the least one

When a run over a table is complete, the modules that are kept are the least set that holds the entry and whatever was
obtained by a path, and that holds what its members bring in, as far as their imports are looked at
(`kept_isLeast`). Along the run `Tracked` holds: every module that was queued is still queued, is being consumed, or has
brought in all that it can, and nothing is kept that a closed set could lack.
-/

namespace ImportClosure

open Step

/-- The imports of a module are looked at: it is the entry, or building it is news. -/
def ModuleTable.Expands (table : ModuleTable) (entry i : Identity) : Prop :=
  i = entry ∨ ∃ row, table.lookup i.name = some row ∧ row.prebuilt = false

namespace Engine

/-- A set holds the entry, the seeds, and all that its members bring in as far as their imports are looked at. -/
structure IsClosed (e : Engine (List BuildRequest)) (table : ModuleTable) (entry : Identity) (seeds : Set Identity)
    (S : Set Identity) : Prop where
  mem_entry : entry ∈ S
  seeds_subset : seeds ⊆ S
  step : ∀ i ∈ S, table.Expands entry i → ∀ j, e.Brings table i j → j ∈ S

/-- A set that is closed over more seeds is closed over fewer. -/
theorem IsClosed.mono {e : Engine (List BuildRequest)} {table : ModuleTable} {entry : Identity}
    {seeds seeds' S : Set Identity} (h : e.IsClosed table entry seeds' S) (hs : seeds ⊆ seeds') :
    e.IsClosed table entry seeds S :=
  ⟨h.mem_entry, hs.trans h.seeds_subset, h.step⟩

end Engine

/-- The state of a run towards the closure, while the imports of some busy modules are being followed. -/
structure Tracked (e : Engine (List BuildRequest)) (table : ModuleTable) (entry : Identity) (busy : Identity → Prop)
    (s : Session (List BuildRequest)) : Prop where
  pending : ∀ m ∈ s.pending, m.IsOf table ∧ m.record.identity ∈ s.pushes
  busy_pushed : ∀ i, busy i → i ∈ s.pushes
  rows : ∀ i, s.Keeps i → ∃ row, table.lookup i.name = some row
  pushed : ∀ i ∈ s.pushes, s.Keeps i ∧ table.Expands entry i
  expanded : ∀ i row, s.Keeps i → table.lookup i.name = some row → row.prebuilt = false → i ∈ s.pushes
  settled : ∀ i ∈ s.pushes, busy i ∨ i ∈ s.queue ∨ ∀ j, e.Brings table i j → s.Keeps j
  obtained : ∀ i ∈ s.obtained, s.Keeps i
  least : ∀ S, e.IsClosed table entry {i | i ∈ s.obtained} S → ∀ i, s.Keeps i → i ∈ S

namespace Tracked

variable {e : Engine (List BuildRequest)} {table : ModuleTable} {entry : Identity} {busy : Identity → Prop}
  {s s' : Session (List BuildRequest)}

/-- Nothing comes in; something that is kept may be obtained. -/
theorem same (h : Tracked e table entry busy s) (hs : s.Same s')
    (ho : s'.obtained = s.obtained ∨ ∃ i, s.Keeps i ∧ s'.obtained = i :: s.obtained) : Tracked e table entry busy s' := by
  have hsub : ∀ i ∈ s.obtained, i ∈ s'.obtained := by
    intro i hi
    rcases ho with ho | ⟨j, _, ho⟩ <;> rw [ho]
    · exact hi
    · exact List.mem_cons_of_mem j hi
  refine ⟨?_, ?_, ?_, ?_, ?_, ?_, ?_, ?_⟩
  · rw [hs.pending, hs.pushes]
    exact h.pending
  · rw [hs.pushes]
    exact h.busy_pushed
  · exact fun i hi => h.rows i ((hs.keeps i).1 hi)
  · intro i hi
    rw [hs.keeps]
    exact h.pushed i (hs.pushes ▸ hi)
  · intro i row hi
    rw [hs.pushes]
    exact h.expanded i row ((hs.keeps i).1 hi)
  · intro i hi
    rw [Session.queue, hs.pending]
    exact (h.settled i (hs.pushes ▸ hi)).imp id (Or.imp id fun hb j hj => (hs.keeps j).2 (hb j hj))
  · intro i hi
    rw [hs.keeps]
    rcases ho with ho | ⟨j, hj, ho⟩ <;> rw [ho] at hi
    · exact h.obtained i hi
    · rcases List.mem_cons.1 hi with rfl | hi
      · exact hj
      · exact h.obtained i hi
  · intro S hS i hi
    exact h.least S (hS.mono hsub) i ((hs.keeps i).1 hi)

/-- A module of the table comes in that every closed set holds. -/
theorem gains (h : Tracked e table entry busy s) {m : PendingModule} {queued signalled : Bool}
    (hg : s.Gains m queued signalled s') (hm : m.IsOf table) (hq : queued = true → table.Expands entry m.record.identity)
    (hnew : ∀ row, table.lookup m.record.name = some row → row.prebuilt = false → queued = true)
    (ho : s'.obtained = s.obtained ∨ s'.obtained = m.record.identity :: s.obtained)
    (hin : ∀ S, e.IsClosed table entry {i | i ∈ s'.obtained} S → m.record.identity ∈ S) :
    Tracked e table entry busy s' := by
  have hkeeps : ∀ i, s.Keeps i → s'.Keeps i := fun i hi => (hg.keeps i).2 (Or.inl hi)
  have hself : s'.Keeps m.record.identity := (hg.keeps _).2 (Or.inr rfl)
  refine ⟨?_, ?_, ?_, ?_, ?_, ?_, ?_, ?_⟩
  · intro n hn
    rcases hg.mem_pending.1 hn with hn | ⟨hqueued, rfl⟩
    · exact ⟨(h.pending n hn).1, hg.mem_pushes.2 (Or.inl (h.pending n hn).2)⟩
    · exact ⟨hm, hg.mem_pushes.2 (Or.inr ⟨hqueued, rfl⟩)⟩
  · intro i hi
    exact hg.mem_pushes.2 (Or.inl (h.busy_pushed i hi))
  · intro i hi
    rcases (hg.keeps i).1 hi with hi | rfl
    · exact h.rows i hi
    · obtain ⟨row, hrow, _⟩ := hm
      exact ⟨row, hrow⟩
  · intro i hi
    rcases hg.mem_pushes.1 hi with hi | ⟨hqueued, rfl⟩
    · exact ⟨hkeeps i (h.pushed i hi).1, (h.pushed i hi).2⟩
    · exact ⟨hself, hq hqueued⟩
  · intro i row hi hrow hp
    rcases (hg.keeps i).1 hi with hi | rfl
    · exact hg.mem_pushes.2 (Or.inl (h.expanded i row hi hrow hp))
    · exact hg.mem_pushes.2 (Or.inr ⟨hnew row hrow hp, rfl⟩)
  · intro i hi
    rcases hg.mem_pushes.1 hi with hi | hi
    · rcases h.settled i hi with hb | hi | hall
      · exact Or.inl hb
      · exact Or.inr (Or.inl (hg.mem_queue.2 (Or.inl hi)))
      · exact Or.inr (Or.inr fun j hj => hkeeps j (hall j hj))
    · exact Or.inr (Or.inl (hg.mem_queue.2 (Or.inr hi)))
  · intro i hi
    rcases ho with ho | ho <;> rw [ho] at hi
    · exact hkeeps i (h.obtained i hi)
    · rcases List.mem_cons.1 hi with rfl | hi
      · exact hself
      · exact hkeeps i (h.obtained i hi)
  · intro S hS i hi
    rcases (hg.keeps i).1 hi with hi | rfl
    · refine h.least S (hS.mono fun j hj => ?_) i hi
      show j ∈ s'.obtained
      rcases ho with ho | ho <;> rw [ho]
      · exact hj
      · exact List.mem_cons_of_mem _ hj
    · exact hin S hS

/-- Walking keeps track. -/
theorem move_of_walks (he : e.IsOver table) (h : Tracked e table entry busy s) {a : Action} (ha : Action.Walks e a)
    (hm : Move e a s s') : Tracked e table entry busy s' := by
  cases a with
  | fetched r =>
    rcases Engine.same_or_gains_of_fetched hm with ⟨hs, ho⟩ | ⟨o, ho, _, hg, hobt⟩
    · exact h.same hs (ho.imp id fun ⟨hk, ho⟩ => ⟨_, hk, ho⟩)
    · obtain ⟨row, hrow, hb, hid, huses, hnewly⟩ := he.exists_row ho s.cache rfl
      have hobt : s'.obtained = (s.cache.add o.record).1.identity :: s.obtained := by rw [hobt, Cache.identity_add]
      refine h.gains hg ⟨row, hrow, huses⟩ (fun hq => Or.inr ⟨row, hrow, by simpa [hnewly] using hq⟩) ?_ (Or.inr hobt)
        fun S hS => hS.seeds_subset ?_
      · intro row' hrow' hp
        obtain rfl := Option.some.inj (hrow.symm.trans hrow')
        simp [hnewly, hp]
      · show _ ∈ s'.obtained
        rw [hobt]
        exact List.mem_cons_self
  | remarked | rooted | decided => exact h.same (hm.alike rfl).same (Or.inl (hm.alike rfl).obtained_eq)
  | _ => exact ha.elim

/-- Building the entry keeps track of it. -/
theorem entered (he : e.IsOver table) (h : Tracked e table entry busy s) {path : Path} {m : ModuleRecord}
    (hentry : entry = (e.entryBuild path).identity) (hm : Entered e path s (.ok m) s') :
    Tracked e table entry busy s' ∧ entry ∈ s'.pushes := by
  rcases hm.same_or_gains with ⟨_, hno⟩ | ⟨o, ho, hg⟩
  · exact absurd rfl (hno m)
  · have hrec : (e.entryRecord o.record).identity = o.record.identity := rfl
    obtain ⟨row, hrow, hb, hid, huses, hnewly⟩ := he.exists_row ho s.cache hrec
    rw [← hentry] at hid
    refine ⟨h.gains hg ⟨row, hrow, huses⟩ (fun _ => Or.inl hid) (fun _ _ _ => rfl) (Or.inl hm.obtained_eq)
      fun S hS => hid ▸ hS.mem_entry, ?_⟩
    rw [hg.pushes, ← hid]
    exact List.mem_cons_self

/-- Consuming queued modules keeps track. -/
theorem move_of_consumes (he : e.IsOver table) {ms : List PendingModule} (hms : ∀ m ∈ ms, m.IsOf table)
    (hbusy : ∀ m ∈ ms, busy m.record.identity) (h : Tracked e table entry busy s) {a : Action}
    (ha : Action.Consumes e ms a) (hm : Move e a s s') : Tracked e table entry busy s' := by
  have hobt : s'.obtained = s.obtained := by
    obtain ⟨_, _, ha⟩ := ha
    cases a with
    | recursed r signalled =>
      obtain ⟨_, hc⟩ := hm.recursed
      exact hc.obtained_eq
    | remarked | used | decided => exact (hm.alike rfl).obtained_eq
    | _ => exact ha.elim
  rcases he.gains_of_consumes hms ha hm with hs | ⟨m, hmem, n, row, hbrings, hrow, huses, hnew, hg⟩
  · exact h.same hs (Or.inl hobt)
  · refine h.gains hg ⟨row, hrow, huses⟩ (fun hq => Or.inr ⟨row, hrow, by simpa using hq⟩) ?_ (Or.inl hobt) ?_
    · intro row' hrow' hp
      obtain rfl := Option.some.inj (hrow.symm.trans hrow')
      simp [hp]
    · intro S hS
      -- the consumed module is kept, so a closed set holds it and what it brings in
      obtain ⟨hkept, hexp⟩ := h.pushed _ (h.busy_pushed _ (hbusy m hmem))
      rw [hobt] at hS
      exact hS.step _ (h.least S hS _ hkept) hexp _ hbrings

/-- A pass keeps track. -/
theorem runPass (he : e.IsOver table) (hs : e.Remembers s) (h : Tracked e table entry (fun _ => False) s) {c : Nat}
    (hpass : ends e.runPass s = (.ok c, s')) : Tracked e table entry (fun _ => False) s' := by
  obtain ⟨hmoves, hfollowed, _⟩ := Engine.moves_of_runPass hs hpass
  have hms : ∀ m ∈ s.pending, m.IsOf table := fun m hm => (h.pending m hm).1
  -- when the queue has been emptied, the modules that were in it are busy
  have hstart : Tracked e table entry (· ∈ s.queue) { s with pending := [] } :=
    { h with
      pending := fun m hm => nomatch hm
      busy_pushed := fun i hi => by
        obtain ⟨m, hm, rfl⟩ := List.mem_map.1 hi
        exact (h.pending m hm).2
      settled := fun i hi => by
        rcases h.settled i hi with hb | hi | hall
        · exact hb.elim
        · exact Or.inl hi
        · exact Or.inr (Or.inr hall) }
  have hend := hmoves.keeps
    (fun a s s' ha hm h => h.move_of_consumes he hms (fun m hm => List.mem_map_of_mem hm) ha hm) hstart
  refine { hend with busy_pushed := fun i hi => hi.elim, settled := fun i hi => ?_ }
  rcases hend.settled i hi with hb | hi | hall
  · right; right
    obtain ⟨m, hm, rfl⟩ := List.mem_map.1 hb
    rintro j ⟨q, hq, rfl, hd, hbuilds⟩
    exact (hfollowed m hm q ((he.asks_iff (hms m hm)).2 hq)).keeps he hd hbuilds
  · exact Or.inr (Or.inl hi)
  · exact Or.inr (Or.inr hall)

/-- Nothing has happened in a fresh session. -/
theorem fresh (e : Engine (List BuildRequest)) (table : ModuleTable) (entry : Identity) (x : List BuildRequest) :
    Tracked e table entry (fun _ => False) (.fresh x) where
  pending m hm := by simp [Session.fresh] at hm
  busy_pushed i hi := hi.elim
  rows i hi := absurd hi (Session.not_keeps_fresh x i)
  pushed i hi := by simp [Session.fresh, Session.pushes] at hi
  expanded i row hi := absurd hi (Session.not_keeps_fresh x i)
  settled i hi := by simp [Session.fresh, Session.pushes] at hi
  obtained i hi := by simp [Session.fresh, Session.obtained] at hi
  least S _ i hi := absurd hi (Session.not_keeps_fresh x i)

end Tracked

/-- What holds of a session between its operations. -/
structure OnTrack (e : Engine (List BuildRequest)) (table : ModuleTable) (entry : Identity)
    (s : Session (List BuildRequest)) : Prop where
  remembers : e.Remembers s
  tracked : Tracked e table entry (fun _ => False) s

namespace OnTrack

variable {e : Engine (List BuildRequest)} {table : ModuleTable} {entry : Identity} {s s' : Session (List BuildRequest)}

/-- A session in which nothing has happened is on track. -/
theorem fresh (e : Engine (List BuildRequest)) (table : ModuleTable) (entry : Identity) :
    OnTrack e table entry (.fresh []) where
  remembers := .of_nil rfl
  tracked := .fresh e table entry []

/-- Walks leave a session on track. -/
theorem move_of_walks (he : e.IsOver table) (h : OnTrack e table entry s) {a : Action} (ha : Action.Walks e a)
    (hm : Move e a s s') : OnTrack e table entry s' where
  remembers := h.remembers.move hm
  tracked := h.tracked.move_of_walks he ha hm

/-- A pass leaves a session on track. -/
theorem runPass (he : e.IsOver table) (h : OnTrack e table entry s) {c : Nat} (hpass : ends e.runPass s = (.ok c, s')) :
    OnTrack e table entry s' where
  remembers := h.remembers.runPass hpass
  tracked := h.tracked.runPass he h.remembers hpass

end OnTrack

/-- The session is on track, and its entry was queued. -/
structure Begun (e : Engine (List BuildRequest)) (table : ModuleTable) (entry : Identity)
    (s : Session (List BuildRequest)) : Prop where
  onTrack : OnTrack e table entry s
  mem_entry : entry ∈ s.pushes

namespace Begun

variable {e : Engine (List BuildRequest)} {table : ModuleTable} {entry : Identity} {s s' : Session (List BuildRequest)}

/-- Walks leave a session begun. -/
theorem move_of_walks (he : e.IsOver table) (h : Begun e table entry s) {a : Action} (ha : Action.Walks e a)
    (hm : Move e a s s') : Begun e table entry s' where
  onTrack := h.onTrack.move_of_walks he ha hm
  mem_entry := hm.mem_pushes h.mem_entry

/-- A pass leaves a session begun. -/
theorem runPass (he : e.IsOver table) (h : Begun e table entry s) {c : Nat} (hpass : ends e.runPass s = (.ok c, s')) :
    Begun e table entry s' := by
  refine ⟨h.onTrack.runPass he hpass, ?_⟩
  obtain ⟨hgrown, _⟩ := Engine.grownSince_of_runPass h.onTrack.remembers hpass
  rw [hgrown.pushes]
  exact List.mem_append_right _ h.mem_entry

/-- Walks, passes and one building of the entry come to this, if all of them succeed. -/
theorem of_performAll (he : e.IsOver table) {path : Path} {ops : List Operation}
    (hentry : ops.filter Operation.isEntry = [.addEntry path])
    (hops : ∀ op ∈ ops, op.isEntry || op.isWalk || op.isPass)
    (hrun : ends (e.performAll ops) (.fresh []) = (.ok (), s)) : Begun e table (e.entryBuild path).identity s := by
  obtain ⟨before, behind, m, s₁, s₂, hmem, h₁, h₂, h₃⟩ := Engine.exists_entered_of_performAll hentry hrun
  have hkind : ∀ op ∈ before ++ behind, (op.isWalk || op.isPass) = true := by
    intro op hop
    simpa [(hmem op hop).2] using hops op (hmem op hop).1
  -- the session is on track before the entry is built, and has begun from then on
  have hs₁ : OnTrack e table (e.entryBuild path).identity s₁ := by
    refine Engine.keeps_of_performAll (fun _ h => h.remembers) ?_ ?_ ?_ h₁ (.fresh e table _)
    · intro a s s' ha hm h
      exact h.move_of_walks he ha hm
    · intro s c s' hpass h
      exact h.runPass he hpass
    · intro op hop
      exact hkind op (List.mem_append_left _ hop)
  obtain ⟨htracked, hin⟩ := hs₁.tracked.entered he rfl (Engine.entered_of_ends h₂)
  have hremembers : e.Remembers s₂ := hs₁.remembers.move (a := .entered path) (congrArg Prod.snd h₂).symm
  have hs₂ : Begun e table (e.entryBuild path).identity s₂ := ⟨⟨hremembers, htracked⟩, hin⟩
  refine Engine.keeps_of_performAll (fun _ h => h.onTrack.remembers) ?_ ?_ ?_ h₃ hs₂
  · intro a s s' ha hm h
    exact h.move_of_walks he ha hm
  · intro s c s' hpass h
    exact h.runPass he hpass
  · intro op hop
    exact hkind op (List.mem_append_right _ hop)

/-- When the queue is empty, every module whose imports are looked at has brought in all that it can. -/
theorem keeps_of_brings (h : Begun e table entry s) (hqueue : s.queue = []) {i j : Identity} (hi : s.Keeps i)
    (hexp : table.Expands entry i) (hb : e.Brings table i j) : s.Keeps j := by
  have hpushed : i ∈ s.pushes := by
    rcases hexp with rfl | ⟨row, hrow, hp⟩
    · exact h.mem_entry
    · exact h.onTrack.tracked.expanded i row hi hrow hp
  rcases h.onTrack.tracked.settled i hpushed with hbusy | hq | hall
  · exact hbusy.elim
  · rw [hqueue] at hq
    cases hq
  · exact hall j hb

end Begun

/-- Over a table, after walks, passes and one building of the entry in any order, ended by a run to the fixed point, all
of which succeed: the modules that are kept are the least set that holds the entry and whatever was obtained by a path,
and is closed under bringing in. -/
theorem kept_isLeast {e : Engine (List BuildRequest)} {table : ModuleTable} (he : e.IsOver table) {path : Path}
    {ops : List Operation} (hentry : ops.filter Operation.isEntry = [.addEntry path])
    (hops : ∀ op ∈ ops, op.isEntry || op.isWalk || op.isPass) {s s' : Session (List BuildRequest)} {bound : Nat}
    {report : Report} (hrun : ends (e.performAll ops) (.fresh []) = (.ok (), s))
    (hfix : ends (e.runToFixedPoint bound) s = (.ok (some report), s')) :
    IsLeast {S | e.IsClosed table (e.entryBuild path).identity {i | i ∈ s'.obtained} S} {i | s'.Keeps i} := by
  have hs := Begun.of_performAll he hentry hops hrun
  obtain ⟨s₁, hpasses, rfl, _⟩ := Engine.passes_of_runToFixedPoint hfix
  have hend : Begun e table (e.entryBuild path).identity s₁ :=
    hpasses.keeps (fun _ _ _ hpass h => h.runPass he hpass) hs
  have htracked := hend.onTrack.tracked
  have hqueue : s₁.queue = [] := by rw [Session.queue, hpasses.pending_eq_nil, List.map_nil]
  constructor
  · refine ⟨(htracked.pushed _ hend.mem_entry).1, htracked.obtained, ?_⟩
    intro i hi hexp j hb
    exact hend.keeps_of_brings hqueue hi hexp hb
  · intro S hS i hi
    exact htracked.least S hS i hi

/-- A walk, the entry and a pass over a diamond succeed, and so does the run behind them. -/
theorem kept_isLeast_diamond :
    let e := (ModuleTable.diamond true).followed
    let ops : List Operation := [.walk (.path ⟨"extra.py"⟩ none), .addEntry ⟨"main.py"⟩, .pass]
    ∃ s report s', ends (e.performAll ops) (.fresh []) = (.ok (), s) ∧
      ends (e.runToFixedPoint 3) s = (.ok (some report), s') ∧
      IsLeast {S | e.IsClosed (.diamond true) (e.entryBuild ⟨"main.py"⟩).identity {i | i ∈ s'.obtained} S} {i | s'.Keeps i} := by
  intro e ops
  obtain ⟨_, s, hrun⟩ : ∃ a s, ends (e.performAll ops) (.fresh []) = (.ok a, s) := exists_of_isOk (by decide +kernel)
  have hs : s = (ends (e.performAll ops) (.fresh [])).2 := by rw [hrun]
  obtain ⟨report, s', hfix⟩ : ∃ report s', ends (e.runToFixedPoint 3) s = (.ok (some report), s') := by
    rw [hs]
    exact exists_of_isSome (by decide +kernel)
  exact ⟨s, report, s', hrun, hfix, kept_isLeast (ModuleTable.isOver_followed _) rfl (by decide) hrun hfix⟩

end ImportClosure
