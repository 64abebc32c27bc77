import ImportClosure.Proofs.Graph
import ImportClosure.Proofs.Passes

/-!
# What passes hand over

A pass takes the whole queue and hands its modules over to be consumed, one after the other. Where one of them cannot be
consumed it leaves the others behind, and they are in no queue any more (`pending_eq_handsOver_append`). So every module
that was ever queued is handed over, left behind by a pass that failed, or still queued (`reverse_pushes_after`), and a
run behind such a pass reports a closure in which imports were not followed (`brokenImport_loses_module`).
-/

namespace ImportClosure

variable {σ : Type}

open Step

/-! ## One pass -/

namespace Engine

/-- The modules of a batch that are handed over to be consumed: all of them, or those up to the first that cannot be. -/
def handedOver (e : Engine σ) : List PendingModule → Session σ → List PendingModule
  | [], _ => []
  | m :: rest, s =>
    match ends (e.consume m) s with
    | (.ok _, s') => m :: e.handedOver rest s'
    | (.error _, _) => [m]

/-- The modules that a pass hands over. -/
def handsOver (e : Engine σ) (s : Session σ) : List PendingModule :=
  e.handedOver s.pending { s with pending := [] }

/-- The modules that a pass leaves behind. -/
def leavesBehind (e : Engine σ) (s : Session σ) : List PendingModule :=
  s.pending.drop (e.handsOver s).length

variable {e : Engine σ} {s s' : Session σ} {batch : List PendingModule}

/-- The modules that are handed over are those that are come to when a batch is consumed. -/
theorem handedOver_eq_reached (e : Engine σ) (batch : List PendingModule) (s : Session σ) :
    e.handedOver batch s = reached e.consume batch s := by
  induction batch generalizing s with
  | nil => rfl
  | cons m rest ih =>
    unfold handedOver reached
    rcases ends (e.consume m) s with ⟨err | u, s'⟩
    · rfl
    · exact congrArg (m :: ·) (ih s')

/-- The modules that are handed over come first. -/
theorem handedOver_prefix (e : Engine σ) (batch : List PendingModule) (s : Session σ) :
    e.handedOver batch s <+: batch :=
  e.handedOver_eq_reached batch s ▸ reached_prefix e.consume batch s

/-- If all modules can be consumed, all of them are handed over. -/
theorem handedOver_eq_self {u : PUnit} (h : ends (batch.forM e.consume) s = (.ok u, s')) : e.handedOver batch s = batch :=
  (e.handedOver_eq_reached batch s).trans (reached_eq_self h)

/-- If one cannot be consumed, it is the last that is handed over, and those in front of it have been consumed. -/
theorem exists_of_handedOver {err : Error} (h : ends (batch.forM e.consume) s = (.error err, s')) :
    ∃ before m s₁, e.handedOver batch s = before ++ [m] ∧ ends (before.forM e.consume) s = (.ok ⟨⟩, s₁) ∧
      ends (e.consume m) s₁ = (.error err, s') :=
  e.handedOver_eq_reached batch s ▸ exists_of_reached h

/-- A pass hands the modules of the queue over or leaves them behind. -/
theorem pending_eq_handsOver_append (e : Engine σ) (s : Session σ) : s.pending = e.handsOver s ++ e.leavesBehind s :=
  (List.prefix_iff_eq_append.1 (e.handedOver_prefix s.pending { s with pending := [] })).symm

/-- A pass that succeeds leaves no module behind. -/
theorem leavesBehind_eq_nil {c : Nat} (h : ends e.runPass s = (.ok c, s')) : e.leavesBehind s = [] := by
  rw [e.ends_runPass] at h
  rcases hc : ends (s.pending.forM e.consume) { s with pending := [] } with ⟨err | u, s₁⟩ <;> rw [hc] at h
  · cases h
  · rw [leavesBehind, handsOver, handedOver_eq_self hc, List.drop_length]

/-- A pass that fails does so at the last module that it hands over. -/
theorem exists_of_runPass_error {err : Error} (h : ends e.runPass s = (.error err, s')) :
    ∃ before m s₁, e.handsOver s = before ++ [m] ∧
      ends (before.forM e.consume) { s with pending := [] } = (.ok ⟨⟩, s₁) ∧ ends (e.consume m) s₁ = (.error err, s') := by
  rw [e.ends_runPass] at h
  rcases hc : ends (s.pending.forM e.consume) { s with pending := [] } with ⟨err' | u, s₁⟩ <;> rw [hc] at h
  · cases h
    exact exists_of_handedOver hc
  · cases h

end Engine

/-! ## All passes of a session -/

namespace Engine

/-- The sessions in which the passes of a run begin. -/
def passesFrom (e : Engine σ) : Nat → Session σ → List (Session σ)
  | 0, _ => []
  | bound + 1, s =>
    s :: match ends e.runPass s with
      | (.ok c, s') => if c = 0 ∧ s'.pending = [] then [] else e.passesFrom bound s'
      | (.error _, _) => []

end Engine

/-- The sessions in which the passes of an operation begin. -/
def Operation.passes (e : Engine σ) (s : Session σ) : Operation → List (Session σ)
  | pass => [s]
  | run bound => e.passesFrom bound s
  | _ => []

namespace Engine

/-- The sessions in which the passes of operations begin. -/
def passes (e : Engine σ) : List Operation → Session σ → List (Session σ)
  | [], _ => []
  | op :: ops, s => op.passes e s ++ e.passes ops (e.next s op)

variable {e : Engine σ} {s s' : Session σ}

/-- The passes of operations, one after the other, are those of both. -/
theorem passes_append (e : Engine σ) (ops more : List Operation) (s : Session σ) :
    e.passes (ops ++ more) s = e.passes ops s ++ e.passes more (e.after ops s) := by
  induction ops generalizing s with
  | nil => rfl
  | cons op ops ih =>
    rw [List.cons_append, passes, ih, passes, List.append_assoc]
    rfl

/-- All passes of a run that answers succeed. -/
theorem exists_of_mem_passesFrom {bound : Nat} {counts : List Nat}
    (h : ends (e.runPasses bound) s = (.ok (some counts), s')) {p : Session σ} (hp : p ∈ e.passesFrom bound s) :
    ∃ c p', ends e.runPass p = (.ok c, p') := by
  induction bound generalizing s counts with
  | zero => cases h
  | succ bound ih =>
    rw [ends_runPasses_succ] at h
    rw [passesFrom] at hp
    rcases hpass : ends e.runPass s with ⟨err | c, s₁⟩ <;> simp only [hpass] at h hp
    · cases h
    rcases List.mem_cons.1 hp with rfl | hp
    · exact ⟨c, s₁, hpass⟩
    split at h
    next hlast =>
      rw [if_pos hlast] at hp
      cases hp
    next hlast =>
      rw [if_neg hlast] at hp
      rcases hrest : ends (e.runPasses bound) s₁ with ⟨err | _ | counts', s₂⟩ <;> simp only [hrest] at h
      · cases h
      · cases h
      · cases h
        exact ih hrest hp

end Engine

/-! ## What has left the queue -/

namespace Session

variable {s s' : Session σ} {gone : List Identity}

/-- Of the modules that were queued, oldest first, the first ones have left the queue, and all others are in it. -/
def Disposes (s : Session σ) (gone : List Identity) : Prop :=
  s.pushes.reverse = gone ++ s.queue

/-- What the queue gains is disposed of with it. -/
theorem Disposes.queues (h : s.Disposes gone) (hq : s.Queues s') : s'.Disposes gone := by
  obtain ⟨new, hpushes, hqueue⟩ := hq
  rw [Disposes, hpushes, hqueue, List.reverse_append, h, List.append_assoc]

/-- Emptying the queue disposes of all that was in it. -/
theorem Disposes.drained (h : s.Disposes gone) : ({ s with pending := [] } : Session σ).Disposes (gone ++ s.queue) :=
  h.trans (List.append_nil _).symm

end Session

section Account

variable {e : Engine σ} {s : Session σ} {gone : List Identity}

namespace Engine

/-- A pass, failed or not, disposes of the whole queue. -/
theorem disposes_runPass (hs : e.Remembers s) (h : s.Disposes gone) :
    (ends e.runPass s).2.Disposes (gone ++ s.queue) := by
  refine h.drained.queues ((moves_runPass hs).queues ?_)
  rintro a ⟨_, _, ha⟩ rfl
  exact ha

/-- Passes dispose of the queues that they take. -/
theorem disposes_runPasses (hs : e.Remembers s) (h : s.Disposes gone) (bound : Nat) :
    (ends (e.runPasses bound) s).2.Disposes (gone ++ (e.passesFrom bound s).flatMap Session.queue) := by
  induction bound generalizing s gone with
  | zero =>
    rw [passesFrom, List.flatMap_nil, List.append_nil]
    exact h
  | succ bound ih =>
    have h₁ := disposes_runPass hs h
    have hs₁ : e.Remembers (ends e.runPass s).2 := hs.runPass rfl
    rw [ends_runPasses_succ, passesFrom, List.flatMap_cons, ← List.append_assoc]
    rcases hpass : ends e.runPass s with ⟨err | c, s₁⟩ <;> rw [hpass] at h₁ hs₁
    · simpa using h₁
    by_cases hlast : c = 0 ∧ s₁.pending = []
    · simpa [hlast] using h₁
    · have hrest := ih hs₁ h₁
      simp only [if_neg hlast]
      rcases hruns : ends (e.runPasses bound) s₁ with ⟨err | answer, s₂⟩ <;> rw [hruns] at hrest <;> exact hrest

/-- A run to the fixed point disposes of the queues that it takes. -/
theorem disposes_runToFixedPoint (hs : e.Remembers s) (h : s.Disposes gone) (bound : Nat) :
    (ends (e.runToFixedPoint bound) s).2.Disposes (gone ++ (e.passesFrom bound s).flatMap Session.queue) := by
  have hruns := disposes_runPasses hs h bound
  rcases e.snd_ends_runToFixedPoint bound s with hend | hend <;> rw [hend]
  · exact hruns
  · exact hruns

/-- An operation disposes of the modules that its passes take. -/
theorem disposes_next (hs : e.Remembers s) (h : s.Disposes gone) (op : Operation) :
    (e.next s op).Disposes (gone ++ (op.passes e s).flatMap Session.queue) := by
  cases hop : op.isPass with
  | false =>
    have hpasses : op.passes e s = [] := by cases op <;> first | rfl | cases hop
    rw [hpasses, List.flatMap_nil, List.append_nil]
    exact h.queues ((op.perform_undrained hs hop).1.queues fun _ ha => ha)
  | true =>
    cases op with
    | pass =>
      rw [next, Operation.perform, snd_ends_drop, Operation.passes, List.flatMap_singleton]
      exact disposes_runPass hs h
    | run bound =>
      rw [next, Operation.perform, snd_ends_drop]
      exact disposes_runToFixedPoint hs h bound
    | _ => cases hop

/-- Operations dispose of the modules that their passes take, and of no others. -/
theorem disposes_after (hs : e.Remembers s) (h : s.Disposes gone) (ops : List Operation) :
    (e.after ops s).Disposes (gone ++ (e.passes ops s).flatMap Session.queue) := by
  induction ops generalizing s gone with
  | nil =>
    rw [passes, List.flatMap_nil, List.append_nil]
    exact h
  | cons op ops ih =>
    rw [passes, List.flatMap_append, ← List.append_assoc]
    exact ih (hs.moves (moves_next hs op)) (disposes_next hs h op)

/-- What was queued in a session, oldest first, is what its passes have taken and what is in the queue. -/
theorem reverse_pushes_after (e : Engine σ) (x : σ) (ops : List Operation) :
    (e.after ops (.fresh x)).pushes.reverse =
      (e.passes ops (.fresh x)).flatMap Session.queue ++ (e.after ops (.fresh x)).queue := by
  have hs : e.Remembers (.fresh x) := .of_nil rfl
  have hfresh : (Session.fresh x).Disposes [] := rfl
  exact disposes_after hs hfresh ops

end Engine

end Account

/-! ## What is built is queued -/

/-- Every module that was newly built was queued. -/
def Session.QueuesBuilt (s : Session σ) : Prop :=
  s.newBuilds ⊆ s.pushes

section Built

variable {e : Engine σ} {s s' : Session σ}

/-- A module that is queued when it was built keeps the queue made of built modules. -/
theorem Session.QueuesBuilt.of_history (h : s.QueuesBuilt) {raw kept : ModuleRecord} (newly pushed : Bool)
    (hid : kept.identity = raw.identity) (hle : newly → pushed)
    (hh : s'.history = (if pushed then [.queued kept] else []) ++ .built raw newly :: s.history) : s'.QueuesBuilt := by
  rw [QueuesBuilt, newBuilds_of_history hh, pushes_of_history hh, hid]
  cases pushed with
  | true =>
    cases newly with
    | true => exact List.cons_subset_cons _ h
    | false => exact List.subset_cons_of_subset _ h
  | false =>
    obtain rfl : newly = false := by simpa using hle
    exact h

/-- Asking for a module queues only what was built. -/
theorem Recursed.queuesBuilt {r : RecursionRequest} {signalled : Bool} {result : Except Error (Option ModuleRecord)}
    (hr : Recursed e r signalled s result s') (h : s.QueuesBuilt) : s'.QueuesBuilt := by
  cases hr with
  | @built o events hnone hres =>
    have hid : (s.cache.add o.record).1.identity = o.record.identity := Cache.identity_add
    refine h.of_history o.newlyBuilt o.newlyBuilt hid id ?_
    cases hn : o.newlyBuilt <;> simp [Session.accepted, Session.built, hn]
  | _ => exact h

/-- What is newly built is queued, whatever happens. -/
theorem Session.QueuesBuilt.move (h : s.QueuesBuilt) {a : Action} (hm : Move e a s s') : s'.QueuesBuilt := by
  cases a with
  | recursed r signalled =>
    obtain ⟨_, hc⟩ := hm.recursed
    exact hc.queuesBuilt h
  | fetched r =>
    obtain ⟨_, s₁, hc, ⟨_, rfl⟩ | ⟨m, _, rfl⟩⟩ := hm.fetched
    · exact hc.queuesBuilt h
    · exact hc.queuesBuilt h
  | entered path =>
    obtain ⟨_, hc⟩ := hm.entered
    cases hc with
    | failed => exact h
    | @built o events hres =>
      have hid : (s.cache.add (e.entryRecord o.record)).1.identity = o.record.identity := Cache.identity_add
      exact h.of_history o.newlyBuilt true hid (fun _ => rfl) rfl
  | drained =>
    cases hm
    exact h
  | _ =>
    have ha := hm.alike rfl
    rw [QueuesBuilt, newBuilds, pushes, ha.history]
    exact h

/-- After any operations only modules that were built are or were queued. -/
theorem Engine.queuesBuilt_after (e : Engine σ) (x : σ) (ops : List Operation) :
    (e.after ops (.fresh x)).QueuesBuilt := by
  have hs : e.Remembers (.fresh x) := .of_nil rfl
  exact (e.moves_after hs ops).keeps (fun _ _ _ _ hm h => h.move hm) (List.nil_subset _)

end Built

/-! ## What becomes of the modules that are queued -/

section Queued

variable {e : Engine σ} {p : Session σ} {i : Identity}

/-- A module of the queue is handed over by the pass that takes it, or left behind by it if it fails. -/
theorem Engine.exists_of_mem_queue (e : Engine σ) (hi : i ∈ p.queue) :
    (∃ m ∈ e.handsOver p, m.record.identity = i) ∨
      (ends e.runPass p).1.isOk = false ∧ ∃ m ∈ e.leavesBehind p, m.record.identity = i := by
  rw [Session.queue, pending_eq_handsOver_append e p, List.map_append, List.mem_append] at hi
  rcases hi with hi | hi
  · exact Or.inl (List.mem_map.1 hi)
  · refine Or.inr ⟨?_, List.mem_map.1 hi⟩
    rcases hpass : ends e.runPass p with ⟨err | c, p'⟩
    · rfl
    · rw [leavesBehind_eq_nil hpass] at hi
      cases hi

end Queued

/-- Over any builder and plugins, a pass in any session hands over the modules of its queue, all of them if it succeeds and
those up to the one that cannot be consumed if it fails. After any operations, failed ones included, what was ever queued
is, oldest first, what passes handed over or left behind, and what is in the queue. If a run then ends in a report, the
queue is empty, and every module that was newly built was handed over by a pass, or left behind by a failed one. -/
theorem queued_handed_over (e : Engine σ) (x : σ) (ops : List Operation) :
    (∀ s : Session σ, s.pending = e.handsOver s ++ e.leavesBehind s ∧
      (∀ c s', ends e.runPass s = (.ok c, s') → e.leavesBehind s = []) ∧
      ∀ err s', ends e.runPass s = (.error err, s') → ∃ before m s₁, e.handsOver s = before ++ [m] ∧
        ends (before.forM e.consume) { s with pending := [] } = (.ok ⟨⟩, s₁) ∧
          ends (e.consume m) s₁ = (.error err, s')) ∧
    (e.after ops (.fresh x)).pushes.reverse =
      ((e.passes ops (.fresh x)).flatMap fun p => e.handsOver p ++ e.leavesBehind p).map (·.record.identity) ++
        (e.after ops (.fresh x)).queue ∧
    ∀ bound report s', ends (e.runToFixedPoint bound) (e.after ops (.fresh x)) = (.ok (some report), s') →
      s'.pending = [] ∧ ∀ i ∈ s'.newBuilds,
        (∃ p ∈ e.passes (ops ++ [.run bound]) (.fresh x), ∃ m ∈ e.handsOver p, m.record.identity = i) ∨
        ∃ p ∈ e.passes ops (.fresh x), (ends e.runPass p).1.isOk = false ∧
          ∃ m ∈ e.leavesBehind p, m.record.identity = i := by
  have hqueues : ∀ ps : List (Session σ), ps.flatMap Session.queue =
      (ps.flatMap fun p => e.handsOver p ++ e.leavesBehind p).map (·.record.identity) := by
    intro ps
    simp only [← Engine.pending_eq_handsOver_append, List.map_flatMap]
    rfl
  refine ⟨fun s => ⟨e.pending_eq_handsOver_append s, fun c s' => Engine.leavesBehind_eq_nil,
    fun err s' => Engine.exists_of_runPass_error⟩, ?_, ?_⟩
  · rw [← hqueues]
    exact e.reverse_pushes_after x ops
  · intro bound report s' hrun
    obtain ⟨s₁, hpasses, rfl, _⟩ := Engine.runPasses_of_runToFixedPoint hrun
    have hpending : s₁.pending = [] := (Engine.passes_of_runPasses hpasses).pending_eq_nil
    have hafter : e.after (ops ++ [.run bound]) (.fresh x) = s₁.note .closureComplete := by
      rw [Engine.after, List.foldl_append]
      exact (snd_ends_drop _ _).trans (congrArg Prod.snd hrun)
    refine ⟨hpending, fun i hi => ?_⟩
    -- what was built was queued, the queue is empty, and so a pass has taken it
    rw [← hafter] at hi
    have hpush := List.mem_reverse.2 (e.queuesBuilt_after x (ops ++ [.run bound]) hi)
    have hqueue : (e.after (ops ++ [.run bound]) (.fresh x)).queue = [] := by
      rw [hafter]
      exact List.map_eq_nil_iff.2 hpending
    rw [e.reverse_pushes_after, hqueue, List.append_nil] at hpush
    obtain ⟨p, hp, hi⟩ := List.mem_flatMap.1 hpush
    rcases e.exists_of_mem_queue hi with hover | ⟨hfail, hleft⟩
    · exact Or.inl ⟨p, hp, hover⟩
    · rw [Engine.passes_append, List.mem_append] at hp
      refine Or.inr ⟨p, hp.resolve_right fun hp => ?_, hfail, hleft⟩
      -- the passes of the run itself have all succeeded
      have hp : p ∈ e.passesFrom bound (e.after ops (.fresh x)) := by simpa [Engine.passes, Operation.passes] using hp
      obtain ⟨c, p', hok⟩ := Engine.exists_of_mem_passesFrom hpasses hp
      rw [hok] at hfail
      cases hfail

/-- An engine over a table whose entry imports two modules. Building what the first one imports is an error. -/
def Engine.brokenImport : Engine (List BuildRequest) where
  policy := { options := { followAll := true }, followTo := [], nofollowTo := [], bytecodeModules := [] }
  tree := .empty ⟨"/w"⟩
  builder := .ofTable [
    (.main, { uses := [ModuleTable.edgeTo "a", ModuleTable.edgeTo "b"] }),
    (⟨"a"⟩, { uses := [ModuleTable.edgeTo "broken"] }),
    (⟨"b"⟩, { uses := [ModuleTable.edgeTo "c"] }),
    (⟨"broken"⟩, { error := some "cannot be parsed" }),
    (⟨"c"⟩, {})]

/-- The second pass fails at the first module and leaves the other one behind. The run behind it ends in a report, and all
other modules that were built have been handed over. -/
theorem queued_handed_over_brokenImport :
    let e := Engine.brokenImport
    let ops : List Operation := [.addEntry ⟨"main.py"⟩, .pass, .pass]
    (e.passes ops (.fresh [])).map (fun p => ((e.handsOver p).map (·.record.name), (e.leavesBehind p).map (·.record.name))) =
        [([.main], []), ([⟨"a"⟩], [⟨"b"⟩])] ∧
      ∃ report s', ends (e.runToFixedPoint 5) (e.after ops (.fresh [])) = (.ok (some report), s') ∧ s'.pending = [] ∧
        ∀ i ∈ s'.newBuilds,
          (∃ p ∈ e.passes (ops ++ [.run 5]) (.fresh []), ∃ m ∈ e.handsOver p, m.record.identity = i) ∨
          ∃ p ∈ e.passes ops (.fresh []), (ends e.runPass p).1.isOk = false ∧
            ∃ m ∈ e.leavesBehind p, m.record.identity = i := by
  intro e ops
  obtain ⟨report, s', hrun⟩ := exists_of_isSome (x := e.runToFixedPoint 5) (s := e.after ops (.fresh [])) (by decide +kernel)
  exact ⟨by decide +kernel, report, s', hrun, (queued_handed_over e [] ops).2.2 5 report s' hrun⟩

/-- Passes lose modules: one that fails leaves a module behind that is in no queue any more. The run behind it reports
that the closure is complete, though this module was newly built, is kept and was never handed over, and what it imports
was never built. -/
theorem brokenImport_loses_module :
    let e := Engine.brokenImport
    let lost : Identity := ⟨⟨"b"⟩, [.root, .name "w", .name "b.py"]⟩
    let ops : List Operation := [.addEntry ⟨"main.py"⟩, .pass]
    let s := e.after ops (.fresh [])
    let s' := (ends e.runPass s).2
    let s'' := (ends (e.runToFixedPoint 5) s').2
    (ends e.runPass s).1.isOk = false ∧ lost ∈ s.queue ∧ lost ∉ (e.handsOver s).map (·.record.identity) ∧
      lost ∉ s'.queue ∧ (ends (e.runToFixedPoint 5) s').1.toOption.join.isSome ∧
        lost ∈ s''.newBuilds ∧ s''.Keeps lost ∧
          (∀ p ∈ e.passes (ops ++ [.pass, .run 5]) (.fresh []), lost ∉ (e.handsOver p).map (·.record.identity)) ∧
            ∀ i ∈ s''.newBuilds, i.name ≠ ⟨"c"⟩ := by
  decide +kernel

end ImportClosure
