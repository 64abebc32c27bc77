import ImportClosure.Proofs.Levels
import ImportClosure.Proofs.Wiring

/-!
# The graph of uses

The uses that a run notes are those of the included links of the modules that it has consumed (`uses_exact`). Between
operations the links that have been followed are those of the modules that were queued and no longer are (`Drawn`).
-/

namespace ImportClosure

open Step

/-- The links of the module that is kept for an identity. -/
def Engine.linksOf (e : Engine (List BuildRequest)) (table : ModuleTable) (s : Session (List BuildRequest)) (i : Identity) :
    List Link :=
  match s.cache.find? i, table.lookup i.name with
  | some m, some row => e.links m row.uses
  | _, _ => []

/-- A module has been consumed: it is kept and not queued any more, and it is the entry, or building it was news. -/
def Session.Consumed {σ : Type} (s : Session σ) (table : ModuleTable) (i : Identity) : Prop :=
  s.Keeps i ∧ i ∉ s.queue ∧ (s.IsEntry i ∨ ∃ row, table.lookup i.name = some row ∧ row.prebuilt = false)

/-! ## Between operations -/

section Run

variable {e : Engine (List BuildRequest)} {table : ModuleTable} {entry : Identity} {s s' : Session (List BuildRequest)}

/-- The entry that is built is kept and queued. -/
theorem Entered.gains_of_ok {σ : Type} {e : Engine σ} {s s' : Session σ} {path : Path} {m : ModuleRecord}
    (h : Entered e path s (.ok m) s') : ∃ o, (e.builder.build (e.entryBuild path) s.builder).1.result = .ok (some o) ∧
      m = (s.cache.add (e.entryRecord o.record)).1 ∧ s.Gains ⟨m, o.uses⟩ true false s' := by
  rcases h.same_or_gains with ⟨_, hno⟩ | ⟨o, ho, hg⟩
  · exact absurd rfl (hno m)
  cases h with
  | @built o' events hb =>
    obtain rfl : o' = o := Option.some.inj (Except.ok.inj (hb.symm.trans ho))
    exact ⟨o', hb, rfl, hg⟩

/-- The queue holds the records that are kept. -/
def Session.QueuesKept {σ : Type} (s : Session σ) : Prop :=
  ∀ m ∈ s.pending, s.cache.find? m.record.identity = some m.record

/-- Whatever is queued is the record that is kept. -/
theorem Session.QueuesKept.move {σ : Type} {e : Engine σ} {s s' : Session σ} (h : s.QueuesKept) {a : Action}
    (hm : Move e a s s') : s'.QueuesKept := by
  have hadd : ∀ {s₁ : Session σ} (m : ModuleRecord) (uses : List ImportEdge), s₁.cache = (s.cache.add m).2 →
      (∀ n ∈ s₁.pending, n ∈ s.pending ∨ n = ⟨(s.cache.add m).1, uses⟩) → s₁.QueuesKept := by
    intro s₁ m uses hcache hpending n hn
    rw [hcache]
    rcases hpending n hn with hn | rfl
    · exact Cache.find?_add_of_some (h n hn)
    · rw [Cache.identity_add]
      exact Cache.find?_add_self
  have hrec : ∀ {r : RecursionRequest} {signalled : Bool} {result : Except Error (Option ModuleRecord)}
      {s₁ : Session σ}, Recursed e r signalled s result s₁ → s₁.QueuesKept := by
    intro r signalled result s₁ hc
    cases hc with
    | @built o events hnone hb =>
      refine hadd _ o.uses rfl fun n hn => ?_
      cases hnew : o.newlyBuilt with
      | false => exact Or.inl (by simpa [Session.accepted, Session.built, hnew] using hn)
      | true => simpa [Session.accepted, Session.built, hnew] using hn
    | _ => exact h
  cases a with
  | recursed r signalled =>
    obtain ⟨_, hc⟩ := hm.recursed
    exact hrec hc
  | fetched r =>
    obtain ⟨_, s₁, hc, hs'⟩ := hm.fetched
    have h₁ : s₁.QueuesKept := hrec hc
    rcases hs' with ⟨_, rfl⟩ | ⟨_, _, rfl⟩ <;> exact h₁
  | entered path =>
    obtain ⟨_, hc⟩ := hm.entered
    cases hc with
    | failed => exact h
    | @built o events hb =>
      refine hadd (e.entryRecord o.record) o.uses rfl fun n hn => ?_
      simpa [Session.entered, Session.built] using hn
  | drained =>
    cases hm
    exact fun n hn => absurd hn List.not_mem_nil
  | _ =>
    have halike := hm.alike rfl
    intro n hn
    rw [halike.cache]
    exact h n (halike.pending ▸ hn)

/-- The links that have been followed between operations: those of the modules that were queued and no longer are. -/
def Engine.followedIn (e : Engine (List BuildRequest)) (table : ModuleTable) (s : Session (List BuildRequest))
    (i : Identity) : List Link :=
  if i ∈ s.pushes ∧ i ∉ s.queue then e.linksOf table s i else []

/-- What holds between the operations of a run. -/
structure Drawn (e : Engine (List BuildRequest)) (table : ModuleTable) (entry : Identity)
    (s : Session (List BuildRequest)) : Prop where
  inRun : InRun e table entry s
  records : s.QueuesKept
  queue_prefix : s.queue.reverse <+: s.pushes
  wired : Wired e table (e.followedIn table s) s

/-- A module that is kept keeps its links. -/
theorem Engine.linksOf_of_mono {i : Identity} (hi : s.Keeps i)
    (hmono : ∀ i kept, s.cache.find? i = some kept → s'.cache.find? i = some kept) :
    e.linksOf table s' i = e.linksOf table s i := by
  obtain ⟨kept, hkept⟩ := Option.isSome_iff_exists.1 hi
  unfold Engine.linksOf
  rw [hmono i kept hkept, hkept]

/-- Queueing more modules follows nothing. -/
theorem InRun.followedIn_eq (h : InRun e table entry s) (h' : InRun e table entry s') (hq : s.Queues s')
    (hmono : ∀ i kept, s.cache.find? i = some kept → s'.cache.find? i = some kept) :
    e.followedIn table s' = e.followedIn table s := by
  obtain ⟨new, hpushes, hqueue⟩ := hq
  have hnodup := h'.once.pushes.1
  rw [hpushes, List.nodup_append] at hnodup
  funext i
  unfold Engine.followedIn
  rw [hpushes, hqueue]
  by_cases hi : i ∈ s.pushes
  · have hnew : i ∉ new := fun hn => hnodup.2.2 i hn i hi rfl
    rw [Engine.linksOf_of_mono (h.tracked.pushed i hi).1 hmono]
    simp [hi, hnew]
  · simp +contextual [hi]

namespace Drawn

/-- A module may be queued. -/
theorem queues (h : Drawn e table entry s) (hrun : InRun e table entry s') (hrecords : s'.QueuesKept) (hq : s.Queues s')
    (hmono : ∀ i kept, s.cache.find? i = some kept → s'.cache.find? i = some kept)
    (hw : Wired e table (e.followedIn table s) s') : Drawn e table entry s' where
  inRun := hrun
  records := hrecords
  queue_prefix := by
    obtain ⟨new, hpushes, hqueue⟩ := hq
    rw [hpushes, hqueue, List.reverse_append, List.reverse_reverse]
    exact (List.prefix_append_right_inj new).2 h.queue_prefix
  wired := by rwa [h.inRun.followedIn_eq hrun hq hmono]

theorem fresh (e : Engine (List BuildRequest)) (table : ModuleTable) (entry : Identity) :
    Drawn e table entry (.fresh []) := by
  have hno := Session.not_keeps_fresh ([] : List BuildRequest)
  refine ⟨⟨.of_nil rfl, .fresh e table entry [], .fresh trivial⟩, ?_, List.nil_prefix, ?_⟩
  · intro m hm
    cases hm
  refine ⟨.of_nil rfl, fun i hi => absurd hi (hno i), fun _ _ _ _ => rfl, fun _ _ _ _ => rfl, ?_,
    fun j hj => absurd hj (hno j)⟩
  rintro i j ⟨u, hu, _⟩
  cases hu

theorem move_of_walks (he : e.IsOver table) (h : Drawn e table entry s) {a : Action} (ha : Action.Walks e a)
    (hm : Move e a s s') : Drawn e table entry s' := by
  have hentered : ∀ path, a ≠ .entered path := by
    rintro path rfl
    exact ha
  have hrun := h.inRun.move_of_walks he ha hm
  have huses : s'.registry.uses = s.registry.uses := by
    cases a with
    | rooted m =>
      obtain ⟨_, rfl⟩ := hm
      exact Registry.uses_addRoot
    | remarked | decided | fetched => rw [hm.registry_eq rfl]
    | _ => exact ha.elim
  have hentry : ∀ i, s'.IsEntry i ↔ s.IsEntry i := by
    intro i
    unfold Session.IsEntry
    rw [hm.entry_eq hentered]
  have hwired : ∀ (hmono : ∀ i, s.Keeps i → s'.Keeps i) (hobtained : ∀ i ∈ s.obtained, i ∈ s'.obtained)
      (hnew : ∀ i, s'.Keeps i → s.Keeps i ∨ table.Builds i.name ∧ i ∈ s'.obtained),
      Wired e table (e.followedIn table s) s' := by
    intro hmono hobtained hnew
    refine h.wired.grow hrun.remembers huses hmono (fun i hi => ?_) fun i hi => (hnew i hi).imp id fun hi => ?_
    · exact hi.imp (hentry i).2 (hobtained i)
    · exact ⟨hi.1, Or.inr hi.2⟩
  have hkept := h.records.move hm
  have hmono : ∀ i kept, s.cache.find? i = some kept → s'.cache.find? i = some kept := fun i kept => hm.find?_mono
  cases a with
  | fetched r =>
    rcases Engine.same_or_gains_of_fetched hm with ⟨hs, ho⟩ | ⟨o, ho, _, hg, hobtained⟩
    · refine h.queues hrun hkept hs.queues hmono (hwired (fun i => (hs.keeps i).2) ?_ fun i hi => Or.inl ((hs.keeps i).1 hi))
      intro i hi
      rcases ho with ho | ⟨_, ho⟩ <;> rw [ho]
      · exact hi
      · exact List.mem_cons_of_mem _ hi
    · obtain ⟨row, hrow, hbuilds, _⟩ := he.exists_row ho s.cache rfl
      refine h.queues hrun hkept hg.queues hmono (hwired (fun i hi => (hg.keeps i).2 (Or.inl hi)) ?_ ?_)
      · intro i hi
        rw [hobtained]
        exact List.mem_cons_of_mem _ hi
      · intro i hi
        refine ((hg.keeps i).1 hi).imp id ?_
        rintro rfl
        refine ⟨⟨row, hrow, hbuilds⟩, ?_⟩
        rw [hobtained, Cache.identity_add]
        exact List.mem_cons_self
  | remarked | rooted | decided =>
    have hs := (hm.alike rfl).same
    refine h.queues hrun hkept hs.queues hmono (hwired (fun i => (hs.keeps i).2) ?_ fun i hi => Or.inl ((hs.keeps i).1 hi))
    rw [(hm.alike rfl).obtained_eq]
    exact fun i hi => hi
  | _ => exact ha.elim

/-- The entry may be built as long as there is none and no module runs under its name. -/
theorem entered (he : e.IsOver table) {path : Path} (h : Drawn e table (e.entryBuild path).identity s)
    (hmain : s.NoMain) (hnone : s.registry.entry = none) {m : ModuleRecord}
    (hm : ends (e.addEntry path) s = (.ok m, s')) :
    Drawn e table (e.entryBuild path).identity s' ∧ (e.entryBuild path).identity ∈ s'.pushes ∧
      s'.registry.entry = some m ∧ m.identity = (e.entryBuild path).identity := by
  have hmove : Move e (.entered path) s s' := (congrArg Prod.snd hm).symm
  obtain ⟨hrun, hin⟩ := h.inRun.entered he hmain hm
  have hentered := Engine.entered_of_ends hm
  have hentry : s'.registry.entry = some m := by
    rw [hentered.registry_eq]
    rfl
  obtain ⟨o, ho, rfl, hg⟩ := hentered.gains_of_ok
  obtain ⟨row, hrow, hbuilds, hid, _⟩ := he.exists_row ho s.cache (m := e.entryRecord o.record) rfl
  refine ⟨h.queues hrun (h.records.move hmove) hg.queues (fun i kept => hmove.find?_mono) ?_, hin, hentry, hid⟩
  refine h.wired.grow hrun.remembers ?_ (fun i hi => (hg.keeps i).2 (Or.inl hi)) (fun i hi => ?_) fun i hi => ?_
  · rw [hentered.registry_eq]
    exact Registry.uses_setEntry
  · rcases hi with ⟨first, hfirst, _⟩ | hi
    · rw [hnone] at hfirst
      cases hfirst
    · exact Or.inr (hentered.obtained_eq ▸ hi)
  · refine ((hg.keeps i).1 hi).imp id ?_
    rintro rfl
    exact ⟨⟨row, hrow, hbuilds⟩, Or.inl ⟨_, hentry, rfl⟩⟩

theorem nodup_queue (h : Drawn e table entry s) : s.queue.Nodup := by
  have hsub := h.queue_prefix.sublist
  exact List.nodup_reverse.1 (hsub.nodup h.inRun.once.pushes.1)

/-- Behind a pass the links of the modules that were queued before it have been followed as well. -/
theorem followedIn_of_grownSince (h : Drawn e table entry s) (hrun : InRun e table entry s') (hgrown : s.GrownSince s')
    (hmono : ∀ i kept, s.cache.find? i = some kept → s'.cache.find? i = some kept) :
    e.followedIn table s' = fun i => e.followedIn table s i ++ e.linksIn s.pending i := by
  have hnodup := hrun.once.pushes.1
  rw [hgrown.pushes, List.nodup_append] at hnodup
  have hnew : ∀ i ∈ s.pushes, i ∈ s'.pushes ∧ i ∉ s'.queue := by
    intro i hi
    refine ⟨?_, fun hq => hnodup.2.2 i (List.mem_reverse.2 hq) i hi rfl⟩
    rw [hgrown.pushes]
    exact List.mem_append_right _ hi
  funext i
  by_cases hi : i ∈ s.queue
  · obtain ⟨m, hm, rfl⟩ := List.mem_map.1 hi
    obtain ⟨⟨row, hrow, huses⟩, hpushed⟩ := h.inRun.tracked.pending m hm
    have hlinks : e.linksOf table s' m.record.identity = e.links m.record m.uses := by
      unfold Engine.linksOf
      rw [hmono _ _ (h.records m hm), show table.lookup m.record.identity.name = some row from hrow, huses]
    rw [Engine.linksIn_of_mem h.nodup_queue hm, ← hlinks]
    unfold Engine.followedIn
    rw [if_pos (hnew _ hpushed), if_neg fun hn => hn.2 hi, List.nil_append]
  · have hne : ∀ m ∈ s.pending, m.record.identity ≠ i := fun m hm heq => hi (List.mem_map.2 ⟨m, hm, heq⟩)
    rw [Engine.linksIn_of_ne hne, List.append_nil]
    unfold Engine.followedIn
    by_cases hp : i ∈ s.pushes
    · rw [if_pos (hnew i hp), if_pos ⟨hp, hi⟩, Engine.linksOf_of_mono (h.inRun.tracked.pushed i hp).1 hmono]
    · have hno : ¬ (i ∈ s'.pushes ∧ i ∉ s'.queue) := by
        rintro ⟨hpushed, hno⟩
        rw [hgrown.pushes, List.mem_append, List.mem_reverse] at hpushed
        exact hpushed.elim hno hp
      rw [if_neg hno, if_neg fun hn => hp hn.1]

/-- A pass that succeeds follows the links of the modules that were queued. -/
theorem runPass (he : e.IsOver table) (h : Drawn e table entry s) {c : Nat} (hpass : ends e.runPass s = (.ok c, s')) :
    Drawn e table entry s' := by
  have hrun := h.inRun.runPass he hpass
  obtain ⟨hmoves, _⟩ := Engine.moves_of_runPass h.inRun.remembers hpass
  have hgrown := (Engine.grownSince_of_runPass h.inRun.remembers hpass).1
  have hmono : ∀ i kept, s.cache.find? i = some kept → s'.cache.find? i = some kept :=
    fun i kept hi => hmoves.find?_mono (s := { s with pending := [] }) hi
  have hkept : s'.QueuesKept := by
    refine hmoves.keeps (fun a s s' _ hm h => h.move hm) (P := Session.QueuesKept) ?_
    intro m hm
    cases hm
  refine ⟨hrun, hkept, ?_, ?_⟩
  · rw [hgrown.pushes]
    exact List.prefix_append _ _
  have hconsumed : ∃ u, ends (s.pending.forM e.consume) { s with pending := [] } = (.ok u, s') := by
    rw [e.ends_runPass] at hpass
    rcases hc : ends (s.pending.forM e.consume) { s with pending := [] } with ⟨err | u, s₁⟩ <;> rw [hc] at hpass
    · cases hpass
    · cases hpass
      exact ⟨u, rfl⟩
  obtain ⟨_, hconsumed⟩ := hconsumed
  have hstart : Wired e table (e.followedIn table s) { s with pending := [] } :=
    ⟨h.wired.remembers, h.wired.builds, h.wired.notes, h.wired.silent, h.wired.targets, h.wired.chains⟩
  have hend := hstart.consumeAll he (fun m hm => Option.isSome_iff_exists.2 ⟨_, h.records m hm⟩) hconsumed
  rwa [← h.followedIn_of_grownSince hrun hgrown hmono] at hend

/-- A use that is noted is told of by the links of its user, which was queued and no longer is. -/
theorem told_of_mem (h : Drawn e table entry s) {u : Use} {i j : Identity} {tag : UsageTag}
    (hu : u ∈ s.registry.between i j tag) :
    (i ∈ s.pushes ∧ i ∉ s.queue) ∧ (u.reason, u.sourceRef) ∈ e.told j tag (e.linksOf table s i) := by
  have hnoted : (u.reason, u.sourceRef) ∈ s.registry.notes i j tag := List.mem_map_of_mem hu
  by_cases hj : table.Builds j.name
  · rw [h.wired.notes i j tag hj] at hnoted
    by_cases hi : i ∈ s.pushes ∧ i ∉ s.queue
    · rw [Engine.followedIn, if_pos hi] at hnoted
      exact ⟨hi, hnoted⟩
    · rw [Engine.followedIn, if_neg hi] at hnoted
      cases hnoted
  · rw [h.wired.silent i j tag hj] at hnoted
    cases hnoted

end Drawn

/-! ## Runs with at most one entry -/

/-- No entry has been built. -/
structure Unentered (e : Engine (List BuildRequest)) (table : ModuleTable) (entry : Identity)
    (s : Session (List BuildRequest)) : Prop where
  drawn : Drawn e table entry s
  noMain : s.NoMain
  entry_eq : s.registry.entry = none

/-- The entry has been built. -/
structure HasEntry (e : Engine (List BuildRequest)) (table : ModuleTable) (entry : Identity)
    (s : Session (List BuildRequest)) : Prop where
  drawn : Drawn e table entry s
  mem_entry : entry ∈ s.pushes
  entry_eq : ∃ m, s.registry.entry = some m ∧ m.identity = entry

/-- A pass that succeeds is a run of sanctioned actions. -/
theorem Drawn.moves_runPass (h : Drawn e table entry s) {c : Nat} (hpass : ends e.runPass s = (.ok c, s')) :
    Moves e (Action.Sanctioned e) s s' := by
  have hmoves := (Engine.runPass_sanctioned h.inRun.remembers).1
  rwa [hpass] at hmoves

/-- No sanctioned action builds an entry. -/
theorem Action.Sanctioned.ne_entered {a : Action} (ha : a.Sanctioned e) (path : Path) : a ≠ .entered path := by
  rintro rfl
  exact ha

theorem Unentered.of_performAll (he : e.IsOver table) {ops : List Operation}
    (hops : ∀ op ∈ ops, op.isWalk || op.isPass) (hrun : ends (e.performAll ops) (.fresh []) = (.ok (), s)) :
    Unentered e table entry s := by
  have hmove : ∀ {a : Action} {s s' : Session (List BuildRequest)}, a.Sanctioned e → Move e a s s' →
      s.NoMain ∧ s.registry.entry = none → s'.NoMain ∧ s'.registry.entry = none := by
    intro a s s' ha hm h
    exact ⟨h.1.move (InRun.buildsOnce he) ha.sparesMain hm, (hm.entry_eq ha.ne_entered).trans h.2⟩
  refine Engine.keeps_of_performAll (fun _ h => h.drawn.inRun.remembers) ?_ ?_ hops hrun
    ⟨.fresh e table entry, Session.noMain_fresh [], rfl⟩
  · intro a s s' ha hm h
    obtain ⟨hmain, hnone⟩ := hmove ha.sanctioned hm ⟨h.noMain, h.entry_eq⟩
    exact ⟨h.drawn.move_of_walks he ha hm, hmain, hnone⟩
  · intro s c s' hpass h
    obtain ⟨hmain, hnone⟩ := (h.drawn.moves_runPass hpass).keeps
      (P := fun s => s.NoMain ∧ s.registry.entry = none) (fun _ _ _ => hmove) ⟨h.noMain, h.entry_eq⟩
    exact ⟨h.drawn.runPass he hpass, hmain, hnone⟩

theorem HasEntry.of_performAll (he : e.IsOver table) {ops : List Operation}
    (hops : ∀ op ∈ ops, op.isWalk || op.isPass) (hrun : ends (e.performAll ops) s = (.ok (), s'))
    (h : HasEntry e table entry s) : HasEntry e table entry s' := by
  refine Engine.keeps_of_performAll (fun _ h => h.drawn.inRun.remembers) ?_ ?_ hops hrun h
  · intro a s s' ha hm h
    refine ⟨h.drawn.move_of_walks he ha hm, hm.mem_pushes h.mem_entry, ?_⟩
    rw [hm.entry_eq ha.sanctioned.ne_entered]
    exact h.entry_eq
  · intro s c s' hpass h
    obtain ⟨hin, hentry⟩ := (h.drawn.moves_runPass hpass).keeps
      (P := fun s => entry ∈ s.pushes ∧ ∃ m, s.registry.entry = some m ∧ m.identity = entry)
      (fun a s s' ha hm h => ⟨hm.mem_pushes h.1, by rw [hm.entry_eq ha.ne_entered]; exact h.2⟩)
      ⟨h.mem_entry, h.entry_eq⟩
    exact ⟨h.drawn.runPass he hpass, hin, hentry⟩

/-- At most one entry, walks and passes lead to a session of a run whose consumed modules are those that were queued and no
longer are. -/
theorem Drawn.of_performAll (he : e.IsOver table) {ops : List Operation} (hentry : ops.countP Operation.isEntry ≤ 1)
    (hops : ∀ op ∈ ops, op.isEntry || op.isWalk || op.isPass)
    (hrun : ends (e.performAll ops) (.fresh []) = (.ok (), s)) :
    ∃ entry, Drawn e table entry s ∧ ∀ i, s.Consumed table i ↔ i ∈ s.pushes ∧ i ∉ s.queue := by
  have hconsumed : ∀ {entry : Identity}, Drawn e table entry s →
      (∀ i, s.IsEntry i → i ∈ s.pushes) → (entry ∈ s.pushes → s.IsEntry entry) →
      ∀ i, s.Consumed table i ↔ i ∈ s.pushes ∧ i ∉ s.queue := by
    intro entry h hof hto i
    constructor
    · rintro ⟨hkept, hqueue, hi | ⟨row, hrow, hnew⟩⟩
      · exact ⟨hof i hi, hqueue⟩
      · exact ⟨h.inRun.tracked.expanded i row hkept hrow hnew, hqueue⟩
    · rintro ⟨hi, hqueue⟩
      obtain ⟨hkept, rfl | hnew⟩ := h.inRun.tracked.pushed i hi
      · exact ⟨hkept, hqueue, Or.inl (hto hi)⟩
      · exact ⟨hkept, hqueue, Or.inr hnew⟩
  rw [List.countP_eq_length_filter] at hentry
  rcases hfilter : ops.filter Operation.isEntry with _ | ⟨op, rest⟩
  · have hplain : ∀ op ∈ ops, (op.isWalk || op.isPass) = true := by
      intro op hop
      have hno : op.isEntry = false := by simpa using List.filter_eq_nil_iff.1 hfilter op hop
      simpa [hno] using hops op hop
    have h : Unentered e table ⟨.main, []⟩ s := .of_performAll he hplain hrun
    refine ⟨_, h.drawn, hconsumed h.drawn ?_ ?_⟩
    · rintro i ⟨m, hm, _⟩
      rw [h.entry_eq] at hm
      cases hm
    · intro hin
      exact absurd rfl (h.noMain _ (h.drawn.inRun.tracked.pushed _ hin).1)
  · obtain rfl : rest = [] := by
      rw [hfilter, List.length_cons] at hentry
      exact List.length_eq_zero_iff.1 (by omega)
    have hop : op.isEntry = true := (List.mem_filter.1 (hfilter ▸ List.mem_singleton_self op)).2
    cases op with
    | addEntry path =>
      obtain ⟨before, behind, m, s₁, s₂, hmem, h₁, h₂, h₃⟩ := Engine.exists_entered_of_performAll hfilter hrun
      have hplain : ∀ op ∈ before ++ behind, (op.isWalk || op.isPass) = true := by
        intro op hop
        simpa [(hmem op hop).2] using hops op (hmem op hop).1
      have hs₁ : Unentered e table (e.entryBuild path).identity s₁ :=
        .of_performAll he (fun op hop => hplain op (List.mem_append_left _ hop)) h₁
      obtain ⟨hdrawn, hin, hentry, hid⟩ := hs₁.drawn.entered he hs₁.noMain hs₁.entry_eq h₂
      have h : HasEntry e table (e.entryBuild path).identity s :=
        .of_performAll he (fun op hop => hplain op (List.mem_append_right _ hop)) h₃ ⟨hdrawn, hin, m, hentry, hid⟩
      refine ⟨_, h.drawn, hconsumed h.drawn ?_ fun _ => h.entry_eq⟩
      rintro i ⟨m, hm, rfl⟩
      obtain ⟨m', hm', hid⟩ := h.entry_eq
      obtain rfl : m = m' := Option.some.inj (hm.symm.trans hm')
      exact hid ▸ h.mem_entry
    | _ => cases hop

end Run

/-! ## The graph -/

/-- The uses that are noted are exactly those of the modules that have been consumed. -/
structure Engine.GraphIsExact (e : Engine (List BuildRequest)) (table : ModuleTable) (s : Session (List BuildRequest)) :
    Prop where
  /-- A use is noted exactly if its user has been consumed, what is used is kept, and the user has an included link to
  it. -/
  exists_use_iff : ∀ i j tag, (∃ u ∈ s.registry.uses, u.user.identity = i ∧ u.used.identity = j ∧ u.tag = tag) ↔
    s.Consumed table i ∧ s.Keeps j ∧ ∃ l ∈ e.linksOf table s i, e.carries j tag l = true
  /-- For every pair and tag at most one use is noted. -/
  length_between_le : ∀ i j tag, (s.registry.between i j tag).length ≤ 1
  /-- A use carries the reason for which the first included link was followed, and the line of this link. -/
  exists_link : ∀ u ∈ s.registry.uses, ∃ l reason,
    (e.linksOf table s u.user.identity).find? (e.carries u.used.identity u.tag) = some l ∧
      e.policy.decide l.query = .included reason ∧ u.reason = reason.text ∧ u.sourceRef = some l.sourceRef
  /-- What is kept is the entry, or a path led to it, or it is reached from one of these by uses. -/
  exists_chain : ∀ j, s.Keeps j → ¬ s.IsStart j → ∃ i, s.IsStart i ∧ Relation.TransGen s.registry.Uses i j

/-- Over a table, after walks, passes and at most one building of the entry in any order, all of which succeed, the graph
of uses is exact. -/
theorem uses_exact {e : Engine (List BuildRequest)} {table : ModuleTable} (he : e.IsOver table) {ops : List Operation}
    (hentry : ops.countP Operation.isEntry ≤ 1) (hops : ∀ op ∈ ops, op.isEntry || op.isWalk || op.isPass)
    {s : Session (List BuildRequest)} (hrun : ends (e.performAll ops) (.fresh []) = (.ok (), s)) :
    e.GraphIsExact table s := by
  obtain ⟨entry, h, hconsumed⟩ := Drawn.of_performAll he hentry hops hrun
  refine ⟨?_, ?_, ?_, ?_⟩
  · intro i j tag
    constructor
    · rintro ⟨u, hu, hi, hj, htag⟩
      obtain ⟨hfollowed, hsaid⟩ := h.told_of_mem (Registry.mem_between.2 ⟨hu, hi, hj, htag⟩)
      obtain ⟨l, _, hl, _⟩ := Engine.exists_of_mem_told hsaid
      refine ⟨(hconsumed i).2 hfollowed, h.wired.targets i j ⟨u, hu, hi, hj⟩, l, List.mem_of_find?_eq_some hl, ?_⟩
      exact List.find?_some hl
    · rintro ⟨hi, hj, l, hl, hcarries⟩
      have htold := h.wired.notes i j tag (h.wired.builds j hj)
      rw [Engine.followedIn, if_pos ((hconsumed i).1 hi)] at htold
      have hne : s.registry.between i j tag ≠ [] := by
        intro hnil
        rw [Registry.notes_eq_nil.2 hnil] at htold
        exact Engine.told_eq_nil_iff.1 htold.symm l hl hcarries
      obtain ⟨u, hu⟩ := List.exists_mem_of_ne_nil _ hne
      exact ⟨u, Registry.mem_between.1 hu⟩
  · intro i j tag
    rw [← List.length_map (fun u : Use => (u.reason, u.sourceRef))]
    by_cases hj : table.Builds j.name
    · rw [show (s.registry.between i j tag).map _ = _ from h.wired.notes i j tag hj]
      exact Option.length_toList_le
    · rw [show (s.registry.between i j tag).map _ = _ from h.wired.silent i j tag hj]
      exact Nat.zero_le 1
  · intro u hu
    exact Engine.exists_of_mem_told (h.told_of_mem (Registry.mem_between.2 ⟨hu, rfl, rfl, rfl⟩)).2
  · intro j hj hno
    obtain ⟨i, hi, hchain⟩ := h.wired.chains j hj
    rcases Relation.reflTransGen_iff_eq_or_transGen.1 hchain with rfl | hchain
    · exact absurd hi hno
    · exact ⟨i, hi, hchain⟩

/-- An engine over a diamond whose plugins declare that the entry needs a module which it imports anyway. -/
def ModuleTable.declared : Engine (List BuildRequest) :=
  let e := (ModuleTable.diamond true).followed
  let needed : ImplicitImport := ⟨⟨"b"⟩, some ⟨⟨"/w/b.py"⟩⟩, .source, "needed"⟩
  { e with policy := { e.policy with plugins := PluginTable.plugins { implicitImports := [(.main, [needed])] } } }

/-- When the entry and what it imports have been consumed, six uses are noted, two of them between the same modules. -/
theorem uses_exact_diamond :
    let e := ModuleTable.declared
    let ops : List Operation := [.addEntry ⟨"main.py"⟩, .pass, .walk (.path ⟨"extra.py"⟩ none), .pass]
    ∃ s, ends (e.performAll ops) (.fresh []) = (.ok (), s) ∧ s.registry.usageCount = 6 ∧
      e.GraphIsExact (.diamond true) s := by
  intro e ops
  obtain ⟨_, s, hrun⟩ : ∃ a s, ends (e.performAll ops) (.fresh []) = (.ok a, s) := exists_of_isOk (by decide +kernel)
  have hs : s = (ends (e.performAll ops) (.fresh [])).2 := by rw [hrun]
  have he : e.IsOver (.diamond true) := ⟨rfl, PluginTable.answersByName _, fun _ _ _ => rfl⟩
  refine ⟨s, hrun, ?_, uses_exact he (by decide) (by decide) hrun⟩
  rw [hs]
  decide +kernel

end ImportClosure
