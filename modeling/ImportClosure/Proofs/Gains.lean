import ImportClosure.Proofs.Operations

/-!
# What comes in

A session as a set of modules that are kept, a queue, and lists of what was queued and signalled. Asking for a module
either leaves all of them as they are (`Session.Same`) or adds one module (`Session.Gains`), over any builder.
-/

namespace ImportClosure

variable {σ : Type}

namespace Session

variable {s s' s₁ : Session σ}

/-- The identities of the modules that are queued, oldest first. -/
def queue (s : Session σ) : List Identity :=
  s.pending.map fun m => m.record.identity

section Taken

variable {raw kept : ModuleRecord} {newly pushed : Bool}
  (hh : s'.history = (if pushed then [.queued kept] else []) ++ .built raw newly :: s.history)

include hh

/-- A build and the queueing behind it add the module to the newly built ones if it is new. -/
theorem newBuilds_of_history :
    s'.newBuilds = if newly then raw.identity :: s.newBuilds else s.newBuilds := by
  rw [newBuilds, hh]
  cases pushed <;> cases newly <;> simp [newBuilds, Milestone.newBuild?, List.filterMap_cons]

/-- A module that is put into the queue is the last that was pushed. -/
theorem pushes_of_history : s'.pushes = if pushed then kept.identity :: s.pushes else s.pushes := by
  rw [pushes, hh]
  cases pushed <;> simp [pushes, Milestone.push?, List.filterMap_cons]

end Taken

/-- Two sessions keep, queue and signal the same modules. -/
structure Same (s s' : Session σ) : Prop where
  keeps : ∀ i, s'.Keeps i ↔ s.Keeps i
  pending : s'.pending = s.pending
  pushes : s'.pushes = s.pushes
  signals : s'.signals = s.signals

/-- A module is kept from now on; it may be queued, and signalled if it is. -/
structure Gains (m : PendingModule) (queued signalled : Bool) (s s' : Session σ) : Prop where
  keeps : ∀ i, s'.Keeps i ↔ s.Keeps i ∨ i = m.record.identity
  pending : s'.pending = if queued then s.pending ++ [m] else s.pending
  pushes : s'.pushes = if queued then m.record.identity :: s.pushes else s.pushes
  signals : s'.signals = if queued && signalled then s.signals ++ [m.record.identity] else s.signals

/-- What happens to no module before and after a module comes in changes nothing about it. -/
theorem Gains.of_same {m : PendingModule} {queued signalled : Bool} (hg : s₁.Gains m queued signalled s₂)
    (h : s.Same s₁) (h' : s₂.Same s') : s.Gains m queued signalled s' where
  keeps i := by rw [h'.keeps, hg.keeps, h.keeps]
  pending := by rw [h'.pending, hg.pending, h.pending]
  pushes := by rw [h'.pushes, hg.pushes, h.pushes]
  signals := by rw [h'.signals, hg.signals, h.signals]

/-- Only the module that comes in may be queued besides those that were. -/
theorem Gains.mem_pending {m n : PendingModule} {queued signalled : Bool} (hg : s.Gains m queued signalled s') :
    n ∈ s'.pending ↔ n ∈ s.pending ∨ queued = true ∧ n = m := by
  rw [hg.pending]
  cases queued <;> simp

/-- Behind a new module the queue has it, if it was queued, and what it had. -/
theorem Gains.mem_queue {m : PendingModule} {queued signalled : Bool} {i : Identity}
    (hg : s.Gains m queued signalled s') : i ∈ s'.queue ↔ i ∈ s.queue ∨ queued = true ∧ i = m.record.identity := by
  rw [queue, hg.pending]
  cases queued <;> simp [queue]

/-- Behind a new module those that were pushed are it, if it was queued, and those that were. -/
theorem Gains.mem_pushes {m : PendingModule} {queued signalled : Bool} {i : Identity}
    (hg : s.Gains m queued signalled s') : i ∈ s'.pushes ↔ i ∈ s.pushes ∨ queued = true ∧ i = m.record.identity := by
  rw [hg.pushes]
  cases queued <;> simp [or_comm]

/-- What was queued lately is still in the queue. -/
def Queues (s s' : Session σ) : Prop :=
  ∃ new, s'.pushes = new ++ s.pushes ∧ s'.queue = s.queue ++ new.reverse

/-- What leaves the queue as it is only adds to it. -/
theorem Same.queues (h : s.Same s') : s.Queues s' :=
  ⟨[], by simp [h.pushes], by simp [queue, h.pending]⟩

/-- A new module only adds to the queue. -/
theorem Gains.queues {m : PendingModule} {queued signalled : Bool} (h : s.Gains m queued signalled s') :
    s.Queues s' := by
  cases queued with
  | false => exact ⟨[], by simp [h.pushes], by simp [queue, h.pending]⟩
  | true => exact ⟨[m.record.identity], by simp [h.pushes], by simp [queue, h.pending]⟩

/-- What only adds to the queue twice only adds to it. -/
theorem Queues.trans (h : s.Queues s₁) (h' : s₁.Queues s') : s.Queues s' := by
  obtain ⟨new, hpushes, hqueue⟩ := h
  obtain ⟨new', hpushes', hqueue'⟩ := h'
  exact ⟨new' ++ new, by rw [hpushes', hpushes, List.append_assoc], by
    rw [hqueue', hqueue, List.reverse_append, List.append_assoc]⟩

/-- Sessions that are alike have the same modules and queue. -/
theorem Alike.same (h : s.Alike s') : s.Same s' where
  keeps i := by rw [Session.Keeps, h.cache, Session.Keeps]
  pending := h.pending
  pushes := by rw [Session.pushes, h.history, Session.pushes]
  signals := by rw [Session.signals, h.changes, Session.signals]

/-- Sessions that are alike have obtained the same modules. -/
theorem Alike.obtained_eq (h : s.Alike s') : s'.obtained = s.obtained := by
  rw [Session.obtained, h.history, Session.obtained]

end Session

variable {e : Engine σ} {s s' : Session σ}

/-- What asking for a module comes to: nothing comes in, and a module is got only if it is kept already, or the builder
gives a module, which comes in and is got. -/
theorem Recursed.same_or_gains {r : RecursionRequest} {signalled : Bool} {result : Except Error (Option ModuleRecord)}
    (hr : Recursed e r signalled s result s') :
    (s.Same s' ∧ ∀ m, result = .ok (some m) → m.identity = r.identity ∧ s.Keeps r.identity) ∨
    ∃ o, (e.builder.build r.toBuild s.builder).1.result = .ok (some o) ∧ ¬ s.Keeps r.identity ∧
      s.Gains ⟨(s.cache.add o.record).1, o.uses⟩ o.newlyBuilt signalled s' ∧
      result = .ok (some (s.cache.add o.record).1) := by
  have hsame : ∀ {builder : σ} {events : List Event}, s.Same { s with builder, events } :=
    ⟨fun _ => Iff.rfl, rfl, rfl, rfl⟩
  cases hr with
  | @known kept hk =>
    refine Or.inl ⟨⟨fun _ => Iff.rfl, rfl, rfl, rfl⟩, fun m hm => ?_⟩
    cases hm
    exact ⟨Cache.identity_of_find? hk, Option.isSome_iff_exists.2 ⟨_, hk⟩⟩
  | refused => exact Or.inl ⟨⟨fun _ => Iff.rfl, rfl, rfl, rfl⟩, fun _ h => nomatch h⟩
  | failed => exact Or.inl ⟨hsame, fun _ h => nomatch h⟩
  | passedOver => exact Or.inl ⟨hsame, fun _ h => nomatch h⟩
  | @built o events hnone hres =>
    have hnew : ¬ s.Keeps r.identity := by
      rw [Session.Keeps, Option.not_isSome_iff_eq_none]
      exact hnone
    refine Or.inr ⟨o, hres, hnew, ⟨fun i => ?_, rfl, ?_, ?_⟩, rfl⟩
    · rw [Cache.identity_add]
      exact Session.keeps_add (s := s) rfl
    · cases hn : o.newlyBuilt <;>
        simp [Session.pushes, Session.accepted, Session.built, Milestone.push?, List.filterMap_cons, hn]
    · cases hn : o.newlyBuilt && signalled <;>
        simp [Session.signals, Session.accepted, Session.built, hn, NewCode.identity, ModuleRecord.identity,
          ModuleRecord.key, ModuleKey.identity, ModuleRecord.sourceRef]

/-- Only what is asked for by its path counts as obtained. -/
theorem Recursed.obtained_eq {r : RecursionRequest} {signalled : Bool} {result : Except Error (Option ModuleRecord)}
    (hr : Recursed e r signalled s result s') : s'.obtained = s.obtained := by
  cases hr with
  | @built o events hnone hres =>
    cases hn : o.newlyBuilt <;>
      simp [Session.obtained, Session.accepted, Session.built, Milestone.obtained?, List.filterMap_cons, hn]
  | _ => rfl

/-- What asking for a module by its path comes to: the module is obtained if it is kept already or if it comes in, which
is never signalled. -/
theorem Engine.same_or_gains_of_fetched {r : RecursionRequest} (hm : Move e (.fetched r) s s') :
    (s.Same s' ∧ (s'.obtained = s.obtained ∨ s.Keeps r.identity ∧ s'.obtained = r.identity :: s.obtained)) ∨
    ∃ o, (e.builder.build r.toBuild s.builder).1.result = .ok (some o) ∧ ¬ s.Keeps r.identity ∧
      s.Gains ⟨(s.cache.add o.record).1, o.uses⟩ o.newlyBuilt false s' ∧
      s'.obtained = o.record.identity :: s.obtained := by
  obtain ⟨result, s₁, hc, hr⟩ := hm.fetched
  have hreach : ∀ m, (s₁.reach (.obtained m)).obtained = m.identity :: s.obtained := fun m => by
    rw [← hc.obtained_eq]
    rfl
  rcases hc.same_or_gains with ⟨hs, hgot⟩ | ⟨o, ho, hnew, hg, rfl⟩
  · left
    rcases hr with ⟨_, rfl⟩ | ⟨m, rfl, rfl⟩
    · exact ⟨hs, Or.inl hc.obtained_eq⟩
    · obtain ⟨hid, hkept⟩ := hgot m rfl
      exact ⟨⟨hs.keeps, hs.pending, hs.pushes, hs.signals⟩, Or.inr ⟨hkept, by rw [← hid]; exact hreach m⟩⟩
  · obtain ⟨m, hgot, rfl⟩ := hr.resolve_left fun h => h.1 _ rfl
    cases hgot
    refine Or.inr ⟨o, ho, hnew, ⟨hg.keeps, hg.pending, hg.pushes, hg.signals⟩, ?_⟩
    rw [← Cache.identity_add (c := s.cache)]
    exact hreach _

/-- What building the entry comes to: it fails and nothing comes in, or the entry comes in and is queued. -/
theorem Entered.same_or_gains {path : Path} {result : Except Error ModuleRecord} (hr : Entered e path s result s') :
    (s.Same s' ∧ ∀ m, result ≠ .ok m) ∨
    ∃ o, (e.builder.build (e.entryBuild path) s.builder).1.result = .ok (some o) ∧
      s.Gains ⟨(s.cache.add (e.entryRecord o.record)).1, o.uses⟩ true false s' := by
  cases hr with
  | failed => exact Or.inl ⟨⟨fun _ => Iff.rfl, rfl, rfl, rfl⟩, fun _ h => nomatch h⟩
  | @built o events hres =>
    refine Or.inr ⟨o, hres, fun i => ?_, rfl, ?_, rfl⟩
    · rw [Cache.identity_add]
      exact Session.keeps_add (s := s) rfl
    · simp [Session.pushes, Session.entered, Session.built, Milestone.push?, List.filterMap_cons]

/-- Nothing leaves the queue but when it is emptied. -/
theorem Move.queues {a : Action} (hm : Move e a s s') (ha : a ≠ .drained) : s.Queues s' := by
  cases a with
  | recursed r signalled =>
    obtain ⟨_, hc⟩ := hm.recursed
    rcases hc.same_or_gains with ⟨hs, _⟩ | ⟨o, _, _, hg, _⟩
    · exact hs.queues
    · exact hg.queues
  | fetched r =>
    rcases Engine.same_or_gains_of_fetched hm with ⟨hs, _⟩ | ⟨o, _, _, hg, _⟩
    · exact hs.queues
    · exact hg.queues
  | entered path =>
    obtain ⟨_, hc⟩ := hm.entered
    rcases hc.same_or_gains with ⟨hs, _⟩ | ⟨o, _, hg⟩
    · exact hs.queues
    · exact hg.queues
  | drained => exact absurd rfl ha
  | _ => exact (hm.alike rfl).same.queues

/-- As long as the queue is not taken, it only grows. -/
theorem Moves.queues {allowed : Action → Prop} (h : Moves e allowed s s') (hno : ∀ a, allowed a → a ≠ .drained) :
    s.Queues s' :=
  h.keeps (P := fun s' => s.Queues s') (fun a _ _ ha hm hq => hq.trans (hm.queues (hno a ha)))
    ⟨[], rfl, by simp⟩

/-- No action takes a module back that was queued. -/
theorem Move.mem_pushes {a : Action} (hm : Move e a s s') {i : Identity} (hi : i ∈ s.pushes) : i ∈ s'.pushes := by
  by_cases ha : a = .drained
  · subst ha
    cases hm
    exact hi
  · obtain ⟨new, hpushes, _⟩ := hm.queues ha
    rw [hpushes]
    exact List.mem_append_right new hi

/-- Adding an entry obtains no module by a walk. -/
theorem Entered.obtained_eq {path : Path} {result : Except Error ModuleRecord} (hr : Entered e path s result s') :
    s'.obtained = s.obtained := by
  cases hr with
  | failed => rfl
  | built => simp [Session.obtained, Session.entered, Session.built, Milestone.obtained?, List.filterMap_cons]

/-! ## Over all actions -/

/-- The build that an action leads to. -/
def Action.build? (e : Engine σ) : Action → Option BuildRequest
  | recursed r _ | fetched r => some r.toBuild
  | entered path => some (e.entryBuild path)
  | _ => none

/-- The builder gives no module for a request. -/
def Session.InVain (e : Engine σ) (r : BuildRequest) (s s' : Session σ) : Prop :=
  (∀ o, (e.builder.build r s.builder).1.result ≠ .ok (some o)) ∧ s'.builder = (e.builder.build r s.builder).2

/-- The builder gives a module for a request: it is kept, as it is or as the entry, and nothing else is queued. -/
def Session.Brings (e : Engine σ) (r : BuildRequest) (s s' : Session σ) : Prop :=
  ∃ o m, (e.builder.build r s.builder).1.result = .ok (some o) ∧ s'.builder = (e.builder.build r s.builder).2 ∧
    (m = o.record ∨ m = e.entryRecord o.record) ∧ s'.cache = (s.cache.add m).2 ∧
    s'.pending ⊆ s.pending ++ [⟨(s.cache.add m).1, o.uses⟩]

/-- Asking for a module leaves the kept ones as they are, or brings a new one. -/
theorem Recursed.same_or_brings {r : RecursionRequest} {signalled : Bool} {result : Except Error (Option ModuleRecord)}
    (hr : Recursed e r signalled s result s') :
    s'.cache = s.cache ∧ s'.pending ⊆ s.pending ∧ (s'.builder = s.builder ∨ s.InVain e r.toBuild s') ∨
      s.Brings e r.toBuild s' := by
  cases hr with
  | known | refused => exact Or.inl ⟨rfl, List.Subset.refl _, Or.inl rfl⟩
  | failed _ _ hb | passedOver _ _ hb => exact Or.inl ⟨rfl, List.Subset.refl _, Or.inr ⟨by simp [hb], rfl⟩⟩
  | @built o events hnone hres =>
    refine Or.inr ⟨o, o.record, hres, rfl, Or.inl rfl, rfl, ?_⟩
    show (if o.newlyBuilt then _ else _ : List PendingModule) ⊆ _
    split
    · exact List.Subset.refl _
    · exact List.subset_append_left _ _

/-- An action keeps and queues nothing new, or what the builder gives for the request that it leads to. -/
theorem Move.same_or_brings {a : Action} (hm : Move e a s s') :
    s'.cache = s.cache ∧ s'.pending ⊆ s.pending ∧ (s'.builder = s.builder ∨ ∃ r, a.build? e = some r ∧ s.InVain e r s') ∨
      ∃ r, a.build? e = some r ∧ s.Brings e r s' := by
  cases a with
  | recursed r signalled =>
    obtain ⟨_, hc⟩ := hm.recursed
    exact hc.same_or_brings.imp (fun h => ⟨h.1, h.2.1, h.2.2.imp_right fun h => ⟨_, rfl, h⟩⟩) fun h => ⟨_, rfl, h⟩
  | fetched r =>
    obtain ⟨_, s₁, hc, ⟨_, rfl⟩ | ⟨_, _, rfl⟩⟩ := hm.fetched <;>
      exact hc.same_or_brings.imp (fun h => ⟨h.1, h.2.1, h.2.2.imp_right fun h => ⟨_, rfl, h⟩⟩) fun h => ⟨_, rfl, h⟩
  | entered path =>
    obtain ⟨_, hc⟩ := hm.entered
    cases hc with
    | failed _ _ hb => exact Or.inl ⟨rfl, List.Subset.refl _, Or.inr ⟨_, rfl, hb, rfl⟩⟩
    | @built o events hres => exact Or.inr ⟨_, rfl, o, _, hres, rfl, Or.inr rfl, rfl, List.Subset.refl _⟩
  | drained =>
    cases hm
    exact Or.inl ⟨rfl, List.nil_subset _, Or.inl rfl⟩
  | _ =>
    have ha := hm.alike rfl
    exact Or.inl ⟨ha.cache, ha.pending ▸ List.Subset.refl _, Or.inl ha.builder⟩

/-- The modules that are kept stay different from each other. -/
theorem Move.nodup_kept {a : Action} (hm : Move e a s s') (h : (s.cache.modules.map ModuleRecord.identity).Nodup) :
    (s'.cache.modules.map ModuleRecord.identity).Nodup := by
  rcases hm.same_or_brings with ⟨hcache, _⟩ | ⟨_, _, _, _, _, _, _, hcache, _⟩ <;> rw [hcache]
  · exact h
  · exact Cache.nodup_add h

end ImportClosure
