import ImportClosure.Proofs.Gains
import Mathlib.Algebra.GroupWithZero.Nat

/-!
# Passes

What every pass does, over any builder: the queue and the logs grow by the same modules (`Session.GrownSince`), so the
number that a pass gives is the length of the queue that it leaves, and a pass without a signal is the last one. A run
to the fixed point is a list of such passes (`Engine.Passes`); it ends if only so many modules can be queued at all
(`Engine.runPasses_ne_none`).
-/

namespace ImportClosure

variable {σ : Type}

open Step

/-! ## One pass -/

/-- Since a pass began, the same modules were queued, noted as queued, and signalled. -/
structure Session.GrownSince (start s : Session σ) : Prop where
  pushes : s.pushes = s.queue.reverse ++ start.pushes
  signals : s.signals = start.signals ++ s.queue

namespace Session.GrownSince

variable {start s s' : Session σ}

/-- What leaves a session the same leaves it grown. -/
theorem same (h : start.GrownSince s) (hs : s.Same s') : start.GrownSince s' := by
  constructor
  · rw [hs.pushes, queue, hs.pending]
    exact h.pushes
  · rw [hs.signals, queue, hs.pending]
    exact h.signals

/-- A new module leaves a session grown. -/
theorem gains (h : start.GrownSince s) {m : PendingModule} {queued : Bool} (hg : s.Gains m queued true s') :
    start.GrownSince s' := by
  cases queued with
  | false =>
    constructor
    · rw [hg.pushes, queue, hg.pending]
      exact h.pushes
    · rw [hg.signals, queue, hg.pending]
      exact h.signals
  | true =>
    have hq : s'.queue = s.queue ++ [m.record.identity] := by simp [queue, hg.pending]
    constructor
    · rw [hg.pushes, hq, h.pushes]
      simp
    · rw [hg.signals, hq, h.signals]
      simp

end Session.GrownSince

namespace Engine

variable {e : Engine σ} {s s' : Session σ}

/-- What happens while queued modules are consumed: nothing comes in, or a module that one of them asks about and that
the policy includes. -/
theorem same_or_gains_of_consumes {ms : List PendingModule} {a : Action} (ha : Action.Consumes e ms a)
    (hm : Move e a s s') :
    s.Same s' ∨ ∃ m ∈ ms, ∃ q reason r o, e.Asks m.record m.uses q ∧ e.Stands q (.included reason) ∧
      RecursionRequest.AsksFor r q ∧ (e.builder.build r.toBuild s.builder).1.result = .ok (some o) ∧
      ¬ s.Keeps r.identity ∧ s.Gains ⟨(s.cache.add o.record).1, o.uses⟩ o.newlyBuilt true s' := by
  obtain ⟨m, hmem, ha⟩ := ha
  cases a with
  | recursed r signalled =>
    obtain ⟨rfl, q, reason, hq, hr, hd⟩ := ha
    obtain ⟨_, hc⟩ := hm.recursed
    rcases hc.same_or_gains with ⟨hs, _⟩ | ⟨o, ho, hnew, hg, _⟩
    · exact Or.inl hs
    · exact Or.inr ⟨m, hmem, q, reason, r, o, hq, hd, hr, ho, hnew, hg⟩
  | remarked | used | decided => exact Or.inl (hm.alike rfl).same
  | _ => exact ha.elim

/-- Whatever a pass comes to, it is a run of consuming actions that starts with an empty queue. -/
theorem moves_runPass (hs : e.Remembers s) :
    Moves e (Action.Consumes e s.pending) { s with pending := [] } (ends e.runPass s).2 := by
  have hs₀ : e.Remembers { s with pending := [] } := hs
  have hmoves := (e.consumeAll_leads s.pending hs₀).1
  rw [e.ends_runPass]
  rcases hc : ends (s.pending.forM e.consume) { s with pending := [] } with ⟨err | _, s₁⟩ <;> rw [hc] at hmoves <;>
    exact hmoves

/-- A pass that succeeds has followed all that the queued modules ask about. -/
theorem moves_of_runPass (hs : e.Remembers s) {c : Nat} (h : ends e.runPass s = (.ok c, s')) :
    Moves e (Action.Consumes e s.pending) { s with pending := [] } s' ∧
      (∀ m ∈ s.pending, ∀ q, e.Asks m.record m.uses q → Followed e (Action.Consumes e s.pending) q s') ∧
      c = s'.changes.length - s.changes.length := by
  have hs₀ : e.Remembers { s with pending := [] } := hs
  have hmoves := moves_runPass hs
  rw [h] at hmoves
  rw [e.ends_runPass] at h
  rcases hc : ends (s.pending.forM e.consume) { s with pending := [] } with ⟨err | _, s₁⟩ <;> rw [hc] at h
  · cases h
  · obtain ⟨hval, rfl⟩ := Prod.mk.inj h
    exact ⟨hmoves, (e.consumeAll_leads s.pending hs₀).2 _ _ hc, (Except.ok.inj hval).symm⟩

/-- A pass queues what it signals, and gives its number. -/
theorem grownSince_of_runPass (hs : e.Remembers s) {c : Nat} (h : ends e.runPass s = (.ok c, s')) :
    s.GrownSince s' ∧ c = s'.queue.length := by
  obtain ⟨hmoves, _, hc⟩ := moves_of_runPass hs h
  have hgrown : s.GrownSince s' := by
    refine hmoves.keeps (fun a s₁ s₂ ha hm hg => ?_) (P := fun s' => s.GrownSince s') ⟨rfl, by simp [Session.queue]; rfl⟩
    rcases same_or_gains_of_consumes ha hm with hsame | ⟨_, _, _, _, _, _, _, _, _, _, _, hgain⟩
    · exact hg.same hsame
    · exact hg.gains hgain
  refine ⟨hgrown, ?_⟩
  have hlen := congrArg List.length hgrown.signals
  simp only [Session.signals, List.length_map, List.length_append] at hlen
  omega

/-- A pass leaves only decisions that the policy rendered. -/
theorem Remembers.runPass (hs : e.Remembers s) {result : Except Error Nat} (h : ends e.runPass s = (result, s')) :
    e.Remembers s' := by
  have hm := (runPass_sanctioned hs).1
  rw [h] at hm
  exact hs.moves hm

/-! ## Runs of passes -/

/-- Passes up to the first one that signals nothing and leaves nothing in the queue. -/
inductive Passes (e : Engine σ) : Session σ → List Nat → Session σ → Prop where
  | last {s s' : Session σ} (h : ends e.runPass s = (.ok 0, s')) (hp : s'.pending = []) : Passes e s [0] s'
  | more {s s₁ s' : Session σ} {c : Nat} {counts : List Nat} (h : ends e.runPass s = (.ok c, s₁))
      (hc : c ≠ 0 ∨ s₁.pending ≠ []) (hs : Passes e s₁ counts s') : Passes e s (c :: counts) s'

/-- A run is a pass, and a run of the remaining passes unless this was the last one. -/
theorem ends_runPasses_succ (e : Engine σ) (bound : Nat) (s : Session σ) :
    ends (e.runPasses (bound + 1)) s = match ends e.runPass s with
      | (.error err, s₁) => (.error err, s₁)
      | (.ok c, s₁) =>
        if c = 0 ∧ s₁.pending = [] then (.ok (some [c]), s₁)
        else match ends (e.runPasses bound) s₁ with
          | (.error err, s₂) => (.error err, s₂)
          | (.ok answer, s₂) => (.ok (answer.map (c :: ·)), s₂) := by
  rw [runPasses]
  rcases hpass : ends e.runPass s with ⟨err | c, s₁⟩
  · rw [ends_bind_error hpass]
  · rw [ends_bind_ok hpass, ends_bind_ok (ends_get s₁)]
    by_cases hlast : c = 0 ∧ s₁.pending = []
    · rw [if_pos (by simp [hlast])]
      simp only [if_pos hlast]
      rfl
    · rw [if_neg (by simpa using hlast)]
      simp only [if_neg hlast]
      rcases hrest : ends (e.runPasses bound) s₁ with ⟨err | answer, s₂⟩
      · rw [ends_bind_error hrest]
      · rw [ends_bind_ok hrest]
        rfl

/-- A run that answers consists of passes. -/
theorem passes_of_runPasses {bound : Nat} {counts : List Nat}
    (h : ends (e.runPasses bound) s = (.ok (some counts), s')) : e.Passes s counts s' := by
  induction bound generalizing s counts with
  | zero => cases h
  | succ bound ih =>
    rw [ends_runPasses_succ] at h
    rcases hpass : ends e.runPass s with ⟨err | c, s₁⟩ <;> simp only [hpass] at h
    · cases h
    split at h
    next hlast =>
      obtain ⟨rfl, hp⟩ := hlast
      cases h
      exact .last hpass hp
    next hlast =>
      rcases hrest : ends (e.runPasses bound) s₁ with ⟨err | _ | counts', s₂⟩ <;> simp only [hrest] at h
      · cases h
      · cases h
      · cases h
        exact .more hpass (not_and_or.1 hlast) (ih hrest)

/-- A run that ends in a report is a run of passes that answers. -/
theorem runPasses_of_runToFixedPoint {bound : Nat} {report : Report}
    (h : ends (e.runToFixedPoint bound) s = (.ok (some report), s')) :
    ∃ s₁, ends (e.runPasses bound) s = (.ok (some report.passes), s₁) ∧ s' = s₁.note .closureComplete ∧
      report.newCode = s₁.changes := by
  unfold runToFixedPoint at h
  obtain ⟨answer, s₁, hrun, h⟩ := exists_of_ends_bind h
  cases answer with
  | none => cases h
  | some counts =>
    cases h
    exact ⟨s₁, hrun, rfl, rfl⟩

/-- The report of a run is about its passes. -/
theorem passes_of_runToFixedPoint {bound : Nat} {report : Report}
    (h : ends (e.runToFixedPoint bound) s = (.ok (some report), s')) :
    ∃ s₁, e.Passes s report.passes s₁ ∧ s' = s₁.note .closureComplete ∧ report.newCode = s₁.changes := by
  obtain ⟨s₁, hrun, hrest⟩ := runPasses_of_runToFixedPoint h
  exact ⟨s₁, passes_of_runPasses hrun, hrest⟩

/-- What successful passes keep is kept by a run of them. -/
theorem Passes.keeps {P : Session σ → Prop} {counts : List Nat} (h : e.Passes s counts s')
    (step : ∀ s c s', ends e.runPass s = (.ok c, s') → P s → P s') (hs : P s) : P s' := by
  induction h with
  | last h _ => exact step _ _ _ h hs
  | more h _ _ ih => exact ih (step _ _ _ h hs)

/-- The last pass leaves nothing in the queue. -/
theorem Passes.pending_eq_nil {counts : List Nat} (h : e.Passes s counts s') : s'.pending = [] := by
  induction h with
  | last _ hp => exact hp
  | more _ _ _ ih => exact ih

/-- Every pass but the last signals something, and the last one nothing. -/
theorem Passes.exists_counts (hs : e.Remembers s) {counts : List Nat} (h : e.Passes s counts s') :
    ∃ most, counts = most ++ [0] ∧ ∀ c ∈ most, 0 < c := by
  induction h with
  | last _ _ => exact ⟨[], rfl, by simp⟩
  | @more s s₁ _ c counts h hc _ ih =>
    obtain ⟨most, rfl, hmost⟩ := ih (hs.runPass h)
    refine ⟨c :: most, rfl, ?_⟩
    have hpos : 0 < c := by
      have hlen := (grownSince_of_runPass hs h).2
      rcases hc with hc | hc
      · omega
      · have := List.length_pos_iff.2 hc
        simp only [Session.queue, List.length_map] at hlen
        omega
    simpa using ⟨hpos, hmost⟩

/-- The signals of the passes add up to the log of signals. -/
theorem Passes.sum_eq (hs : e.Remembers s) {counts : List Nat} (h : e.Passes s counts s') :
    s'.signals.length = s.signals.length + counts.sum := by
  induction h with
  | last h hp =>
    have hg := (grownSince_of_runPass hs h).1.signals
    simp [hg, Session.queue, hp]
  | more h _ _ ih =>
    obtain ⟨hg, hlen⟩ := grownSince_of_runPass hs h
    rw [ih (hs.runPass h), hg.signals, List.length_append, List.sum_cons, hlen]
    omega

/-- A run ends, with a report or an error, if passes keep a property under which only so many modules can have been
queued. -/
theorem runPasses_ne_none {P : Session σ → Prop} (most : Nat) (hR : ∀ s, P s → e.Remembers s)
    (step : ∀ s c s', ends e.runPass s = (.ok c, s') → P s → P s') (hmost : ∀ s, P s → s.pushes.length ≤ most)
    (hs : P s) {bound : Nat} (hbound : most < bound + s.pushes.length) :
    (ends (e.runPasses bound) s).1 ≠ .ok none := by
  induction bound generalizing s with
  | zero =>
    have := hmost s hs
    omega
  | succ bound ih =>
    rw [ends_runPasses_succ]
    rcases hpass : ends e.runPass s with ⟨err | c, s₁⟩
    · simp
    obtain ⟨hg, hlen⟩ := grownSince_of_runPass (hR s hs) hpass
    by_cases hlast : c = 0 ∧ s₁.pending = []
    · simp [hlast]
    have hpos : 0 < c := by
      refine Nat.pos_of_ne_zero fun hc => hlast ⟨hc, ?_⟩
      simpa [Session.queue] using List.length_eq_zero_iff.1 (hlen.symm.trans hc)
    have hpushes : s₁.pushes.length = c + s.pushes.length := by
      rw [hg.pushes, List.length_append, List.length_reverse, hlen]
    have hne := ih (step _ _ _ hpass hs) (by omega)
    simp only [if_neg hlast]
    rcases hrest : ends (e.runPasses bound) s₁ with ⟨err | _ | counts, s₂⟩
    · simp
    · exact absurd (congrArg Prod.fst hrest) hne
    · simp

/-- A run to the fixed point answers whenever its passes do. -/
theorem runToFixedPoint_ne_none {bound : Nat} (h : (ends (e.runPasses bound) s).1 ≠ .ok none) :
    (ends (e.runToFixedPoint bound) s).1 ≠ .ok none := by
  unfold runToFixedPoint
  rcases hrun : ends (e.runPasses bound) s with ⟨err | answer, s₁⟩
  · rw [ends_bind_error hrun]
    simp
  · rw [ends_bind_ok hrun]
    cases answer with
    | none => simp [hrun] at h
    | some counts =>
      intro h'
      cases h'

/-- What passes keep, whatever they come to, is kept by a run of them. -/
theorem runPasses_keeps {P : Session σ → Prop} (step : ∀ s, P s → P (ends e.runPass s).2) (hs : P s) (bound : Nat) :
    P (ends (e.runPasses bound) s).2 := by
  induction bound generalizing s with
  | zero => exact hs
  | succ bound ih =>
    have hs₁ := step s hs
    rw [ends_runPasses_succ]
    rcases hpass : ends e.runPass s with ⟨err | c, s₁⟩ <;> rw [hpass] at hs₁
    · exact hs₁
    by_cases hlast : c = 0 ∧ s₁.pending = []
    · simpa only [if_pos hlast] using hs₁
    · have hrest := ih hs₁
      simp only [if_neg hlast]
      rcases hruns : ends (e.runPasses bound) s₁ with ⟨err | answer, s₂⟩ <;> rw [hruns] at hrest <;> exact hrest

/-- A run to the fixed point leaves the session that its passes leave, or notes that it is complete. -/
theorem snd_ends_runToFixedPoint (e : Engine σ) (bound : Nat) (s : Session σ) :
    (ends (e.runToFixedPoint bound) s).2 = (ends (e.runPasses bound) s).2 ∨
      (ends (e.runToFixedPoint bound) s).2 = (ends (e.runPasses bound) s).2.note .closureComplete := by
  unfold runToFixedPoint
  rcases hrun : ends (e.runPasses bound) s with ⟨err | answer, s₁⟩
  · exact Or.inl (by rw [ends_bind_error hrun])
  · rw [ends_bind_ok hrun]
    cases answer with
    | none => exact Or.inl rfl
    | some counts => exact Or.inr rfl

/-- A run never ends if every pass succeeds and leaves something in the queue. -/
theorem runToFixedPoint_eq_none {P : Session σ → Prop}
    (step : ∀ s, P s → ∃ c s', ends e.runPass s = (.ok c, s') ∧ s'.pending ≠ [] ∧ P s') (hs : P s) (bound : Nat) :
    (ends (e.runToFixedPoint bound) s).1 = .ok none := by
  have hpasses : ∀ bound s, P s → ∃ s', ends (e.runPasses bound) s = (.ok none, s') := by
    intro bound
    induction bound with
    | zero => exact fun s _ => ⟨s, rfl⟩
    | succ bound ih =>
      intro s hs
      obtain ⟨c, s₁, hpass, hpending, hs₁⟩ := step s hs
      obtain ⟨s₂, hrest⟩ := ih s₁ hs₁
      refine ⟨s₂, ?_⟩
      rw [ends_runPasses_succ, hpass]
      simp [hpending, hrest]
  obtain ⟨s', hrun⟩ := hpasses bound s hs
  unfold runToFixedPoint
  rw [ends_bind_ok hrun]
  rfl

/-! ## Operations that succeed -/

/-- What successful passes keep is kept by a run of them, also by one that was given too small a bound. -/
theorem keeps_of_runPasses {P : Session σ → Prop} (step : ∀ s c s', ends e.runPass s = (.ok c, s') → P s → P s')
    {bound : Nat} {answer : Option (List Nat)} (h : ends (e.runPasses bound) s = (.ok answer, s')) (hs : P s) :
    P s' := by
  induction bound generalizing s answer with
  | zero =>
    cases h
    exact hs
  | succ bound ih =>
    rw [ends_runPasses_succ] at h
    rcases hpass : ends e.runPass s with ⟨err | c, s₁⟩ <;> simp only [hpass] at h
    · cases h
    have hs₁ := step _ _ _ hpass hs
    split at h
    · cases h
      exact hs₁
    · rcases hrest : ends (e.runPasses bound) s₁ with ⟨err | answer', s₂⟩ <;> simp only [hrest] at h
      · cases h
      · cases h
        exact ih hrest hs₁

/-- What walks and passes keep is kept by a sequence of them that succeeds. -/
theorem keeps_of_performAll {P : Session σ → Prop} {ops : List Operation} (hR : ∀ s, P s → e.Remembers s)
    (hwalk : ∀ a s s', Action.Walks e a → Move e a s s' → P s → P s')
    (hpass : ∀ s c s', ends e.runPass s = (.ok c, s') → P s → P s')
    (hops : ∀ op ∈ ops, op.isWalk || op.isPass) (h : ends (e.performAll ops) s = (.ok (), s')) (hs : P s) : P s' := by
  induction ops generalizing s with
  | nil =>
    cases h
    exact hs
  | cons op ops ih =>
    obtain ⟨_, s₁, hop, hrest⟩ := exists_of_ends_bind h
    refine ih (fun op' hmem => hops op' (List.mem_cons_of_mem op hmem)) hrest ?_
    have hkind := hops op List.mem_cons_self
    by_cases hw : op.isWalk = true
    · have hmoves := (op.perform_walks (hR s hs) hw).1
      rw [hop] at hmoves
      exact hmoves.keeps hwalk hs
    cases op with
    | walk | seed => exact absurd rfl hw
    | pass =>
      obtain ⟨c, s₂, hp, hpure⟩ := exists_of_ends_bind hop
      cases hpure
      exact hpass _ _ _ hp hs
    | run bound =>
      obtain ⟨answer, s₂, hrun, hpure⟩ := exists_of_ends_bind hop
      cases hpure
      unfold runToFixedPoint at hrun
      obtain ⟨answer', s₃, hpasses, hrun⟩ := exists_of_ends_bind hrun
      have hs₃ := keeps_of_runPasses hpass hpasses hs
      cases answer' with
      | none =>
        cases hrun
        exact hs₃
      | some counts =>
        cases hrun
        exact hwalk .remarked _ _ trivial ⟨_, _, _, rfl⟩ hs₃
    | _ => simp [Operation.isWalk, Operation.isPass] at hkind

/-- What walks keep is kept by a sequence of them that succeeds. -/
theorem keeps_of_walks {P : Session σ → Prop} {ops : List Operation} (hR : e.Remembers s)
    (hwalk : ∀ a s s', Action.Walks e a → Move e a s s' → P s → P s') (hops : ∀ op ∈ ops, op.isWalk = true)
    (h : ends (e.performAll ops) s = (.ok (), s')) (hs : P s) : P s' := by
  have hmoves := (performAll_walks hR hops).1
  rw [h] at hmoves
  exact hmoves.keeps hwalk hs

/-- Operations that succeed, one of which builds the entry, come apart at this one. -/
theorem exists_entered_of_performAll {path : Path} {ops : List Operation}
    (hentry : ops.filter Operation.isEntry = [.addEntry path]) (h : ends (e.performAll ops) s = (.ok (), s')) :
    ∃ before behind m s₁ s₂, (∀ op ∈ before ++ behind, op ∈ ops ∧ op.isEntry = false) ∧
      ends (e.performAll before) s = (.ok (), s₁) ∧ ends (e.addEntry path) s₁ = (.ok m, s₂) ∧
      ends (e.performAll behind) s₂ = (.ok (), s') := by
  obtain ⟨before, behind, rfl, hbefore, _, hbehind⟩ := List.filter_eq_cons_iff.1 hentry
  have happend : e.performAll (before ++ .addEntry path :: behind) =
      e.performAll before >>= fun _ => e.performAll (.addEntry path :: behind) := List.forM_append
  rw [happend] at h
  obtain ⟨_, s₁, h₁, h⟩ := exists_of_ends_bind h
  obtain ⟨_, s₂, hop, h₂⟩ := exists_of_ends_bind h
  obtain ⟨m, s₃, hm, hpure⟩ := exists_of_ends_bind hop
  cases hpure
  refine ⟨before, behind, m, s₁, _, fun op hop => ?_, h₁, hm, h₂⟩
  rcases List.mem_append.1 hop with hop | hop
  · exact ⟨by simp [hop], by simpa using hbefore op hop⟩
  · exact ⟨by simp [hop], by simpa using List.filter_eq_nil_iff.1 hbehind op hop⟩

end Engine

end ImportClosure
