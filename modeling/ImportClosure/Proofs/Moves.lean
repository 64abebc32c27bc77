import ImportClosure.Proofs.Cache
import ImportClosure.Proofs.Recursion
import ImportClosure.Session.History
import ImportClosure.Session.Operation

/-!
# What can happen to a session

Every operation takes a session from one state to the next by a few actions, and `Move` says once what each of them
does. `Moves e allowed` are runs of allowed actions; a property that every allowed action keeps is kept by every run
(`Moves.keeps`). `Step.Leads` says of a step that it is such a run and what it comes to; the operations themselves are
taken apart with it further on.
-/

namespace ImportClosure

variable {σ : Type}

open Step

/-- Something that happens to a session. -/
inductive Action where
  /-- Lines, diagnostics and warnings are noted. -/
  | remarked
  /-- A module that is kept becomes a root. -/
  | rooted (m : ModuleRecord)
  /-- A use is noted. -/
  | used (used user : ModuleRecord) (tag : UsageTag) (reason : String) (at_ : SourceRef)
  /-- A decision is asked for. -/
  | decided (q : Query)
  /-- An included module is asked for. -/
  | recursed (r : RecursionRequest) (signalled : Bool)
  /-- An included module is asked for by its path. -/
  | fetched (r : RecursionRequest)
  /-- The entry is built. -/
  | entered (path : Path)
  /-- The queue is emptied. -/
  | drained

/-- What an action makes of a session. -/
def Move (e : Engine σ) : Action → Session σ → Session σ → Prop
  | .remarked, s, s' => ∃ events diagnostics warned, s' = { s with events, diagnostics, warned }
  | .rooted m, s, s' => s.cache.find? m.identity = some m ∧ s' = s.addRoot m
  | .used used user tag reason at_, s, s' =>
    s' = { s with registry := s.registry.addUse used user tag reason (some at_) }
  | .decided q, s, s' => s' = (ends (e.decide q) s).2
  | .recursed r signalled, s, s' => s' = (ends (e.recurse r signalled) s).2
  | .fetched r, s, s' => s' = (ends (e.fetch r) s).2
  | .entered path, s, s' => s' = (ends (e.addEntry path) s).2
  | .drained, s, s' => s' = { s with pending := [] }

/-- A run of allowed actions. -/
inductive Moves (e : Engine σ) (allowed : Action → Prop) : Session σ → Session σ → Prop where
  | refl (s : Session σ) : Moves e allowed s s
  | snoc {s s₁ s₂ : Session σ} (a : Action) :
      Moves e allowed s s₁ → allowed a → Move e a s₁ s₂ → Moves e allowed s s₂

namespace Moves

variable {e : Engine σ} {allowed : Action → Prop} {s s₁ s₂ : Session σ}

/-- One thing that may happen is a run of what may. -/
theorem single (a : Action) (h : allowed a) (hm : Move e a s s₁) : Moves e allowed s s₁ :=
  .snoc a (.refl s) h hm

/-- Two runs, one after the other, are one. -/
theorem trans (h : Moves e allowed s s₁) (h' : Moves e allowed s₁ s₂) : Moves e allowed s s₂ := by
  induction h' with
  | refl => exact h
  | snoc a _ ha hm ih => exact .snoc a ih ha hm

/-- What is allowed may be allowed by a weaker rule. -/
theorem mono {allowed' : Action → Prop} (h : Moves e allowed s s₁) (hle : ∀ a, allowed a → allowed' a) :
    Moves e allowed' s s₁ := by
  induction h with
  | refl => exact .refl _
  | snoc a _ ha hm ih => exact .snoc a ih (hle a ha) hm

/-- A property that every allowed action keeps is kept by every run. -/
theorem keeps {P : Session σ → Prop} (h : Moves e allowed s s₁)
    (step : ∀ a s s', allowed a → Move e a s s' → P s → P s') (hs : P s) : P s₁ := by
  induction h with
  | refl => exact hs
  | snoc a _ ha hm ih => exact step a _ _ ha hm ih

end Moves

/-! ## Actions that may bring a module in -/

/-- That a module was asked for comes to what `Recursed` lists. -/
theorem Move.recursed {e : Engine σ} {r : RecursionRequest} {signalled : Bool} {s s' : Session σ}
    (h : Move e (.recursed r signalled) s s') : ∃ result, Recursed e r signalled s result s' := by
  obtain ⟨result, s₁, hr, hc⟩ := e.recursed r signalled s
  obtain rfl : s' = s₁ := h.trans (congrArg Prod.snd hr)
  exact ⟨result, hc⟩

/-- A module that is asked for by its path is asked for like any other; the history tells if it was got. -/
theorem Move.fetched {e : Engine σ} {r : RecursionRequest} {s s' : Session σ} (h : Move e (.fetched r) s s') :
    ∃ result s₁, Recursed e r false s result s₁ ∧
      ((∀ m, result ≠ .ok (some m)) ∧ s' = s₁ ∨ ∃ m, result = .ok (some m) ∧ s' = s₁.reach (.obtained m)) := by
  obtain ⟨result, s₁, hc, hr⟩ := e.fetched r s
  obtain rfl := h.trans (congrArg Prod.snd hr)
  refine ⟨result, s₁, hc, ?_⟩
  rcases result with err | _ | m
  · exact Or.inl ⟨nofun, rfl⟩
  · exact Or.inl ⟨nofun, rfl⟩
  · exact Or.inr ⟨m, rfl, rfl⟩

/-- That an entry was added comes to what `Entered` lists. -/
theorem Move.entered {e : Engine σ} {path : Path} {s s' : Session σ} (h : Move e (.entered path) s s') :
    ∃ result, Entered e path s result s' := by
  obtain ⟨result, s₁, hr, hc⟩ := e.entered path s
  obtain rfl : s' = s₁ := h.trans (congrArg Prod.snd hr)
  exact ⟨result, hc⟩

/-! ## Actions that bring no module in -/

/-- Two sessions hold the same modules, in the cache, in the queue and in the logs. -/
structure Session.Alike (s s' : Session σ) : Prop where
  builder : s'.builder = s.builder
  cache : s'.cache = s.cache
  pending : s'.pending = s.pending
  changes : s'.changes = s.changes
  history : s'.history = s.history

/-- Two sessions that are alike to a third are alike. -/
theorem Session.Alike.trans {s s₁ s₂ : Session σ} (h : s.Alike s₁) (h' : s₁.Alike s₂) : s.Alike s₂ :=
  ⟨h'.builder.trans h.builder, h'.cache.trans h.cache, h'.pending.trans h.pending, h'.changes.trans h.changes,
    h'.history.trans h.history⟩

/-- Whether an action can neither bring a module in nor take it from the queue. -/
def Action.isQuiet : Action → Bool
  | remarked | rooted _ | used .. | decided _ => true
  | _ => false

/-- A quiet action leaves all modules where they are. -/
theorem Move.alike {e : Engine σ} {a : Action} {s s' : Session σ} (h : Move e a s s') (ha : a.isQuiet) :
    s.Alike s' := by
  cases a with
  | remarked => obtain ⟨_, _, _, rfl⟩ := h; exact ⟨rfl, rfl, rfl, rfl, rfl⟩
  | rooted m => obtain ⟨_, rfl⟩ := h; exact ⟨rfl, rfl, rfl, rfl, rfl⟩
  | used => cases h; exact ⟨rfl, rfl, rfl, rfl, rfl⟩
  | decided q =>
    rcases e.ends_decide q s with ⟨d, _, hq⟩ | ⟨_, events, hq⟩
    · obtain rfl : s' = s := h.trans (congrArg Prod.snd hq)
      exact ⟨rfl, rfl, rfl, rfl, rfl⟩
    · obtain rfl := h.trans (congrArg Prod.snd hq)
      exact ⟨rfl, rfl, rfl, rfl, rfl⟩
  | _ => simp [Action.isQuiet] at ha

/-! ## What is kept stays kept -/

/-- A fresh session keeps nothing. -/
theorem Session.not_keeps_fresh (x : σ) (i : Identity) : ¬ (fresh x).Keeps i := by
  simp [Keeps, fresh, Cache.empty, Cache.find?]

/-- Adding a module to the cache keeps it and what was kept. -/
theorem Session.keeps_add {s s' : Session σ} {m : ModuleRecord} {i : Identity} (h : s'.cache = (s.cache.add m).2) :
    s'.Keeps i ↔ s.Keeps i ∨ i = m.identity := by
  unfold Keeps
  rw [h]
  exact Cache.isSome_find?_add

/-- What is kept stays so when a module is asked for. -/
theorem Recursed.find?_mono {e : Engine σ} {r : RecursionRequest} {signalled : Bool} {s s' : Session σ}
    {result : Except Error (Option ModuleRecord)} (h : Recursed e r signalled s result s') {i : Identity}
    {kept : ModuleRecord} (hk : s.cache.find? i = some kept) : s'.cache.find? i = some kept := by
  cases h with
  | built => exact Cache.find?_add_of_some hk
  | _ => exact hk

/-- No action replaces a module that is kept. -/
theorem Move.find?_mono {e : Engine σ} {a : Action} {s s' : Session σ} (h : Move e a s s') {i : Identity}
    {kept : ModuleRecord} (hk : s.cache.find? i = some kept) : s'.cache.find? i = some kept := by
  cases a with
  | recursed r signalled =>
    obtain ⟨_, hc⟩ := h.recursed
    exact hc.find?_mono hk
  | fetched r =>
    obtain ⟨_, _, hc, ⟨_, rfl⟩ | ⟨_, _, rfl⟩⟩ := h.fetched <;> exact hc.find?_mono hk
  | entered path =>
    obtain ⟨_, hc⟩ := h.entered
    cases hc with
    | failed => exact hk
    | built => exact Cache.find?_add_of_some hk
  | drained => cases h; exact hk
  | _ => rwa [(h.alike rfl).cache]

/-- What is kept stays so. -/
theorem Moves.find?_mono {e : Engine σ} {allowed : Action → Prop} {s s' : Session σ} (h : Moves e allowed s s')
    {i : Identity} {kept : ModuleRecord} (hk : s.cache.find? i = some kept) : s'.cache.find? i = some kept :=
  h.keeps (fun _ _ _ _ hm hk => hm.find?_mono hk) hk

/-- An identity that is kept stays so. -/
theorem Moves.keeps_mono {e : Engine σ} {allowed : Action → Prop} {s s' : Session σ} (h : Moves e allowed s s')
    {i : Identity} (hk : s.Keeps i) : s'.Keeps i := by
  obtain ⟨kept, hkept⟩ := Option.isSome_iff_exists.1 hk
  exact Option.isSome_iff_exists.2 ⟨kept, h.find?_mono hkept⟩

/-! ## Decisions that stand -/

/-- A decision stands for a query if the policy rendered it for this query or for one with the same key. -/
def Engine.Stands (e : Engine σ) (q : Query) (d : Decision) : Prop :=
  ∃ q', q'.key = q.key ∧ e.policy.decide q' = d

/-- All decisions that are remembered were rendered by the policy. -/
def Engine.Remembers (e : Engine σ) (s : Session σ) : Prop :=
  ∀ k d, (k, d) ∈ s.decisions → ∃ q, q.key = k ∧ e.policy.decide q = d

/-- An action other than a decision leaves the decisions alone. -/
theorem Move.decisions_eq {e : Engine σ} {a : Action} {s s' : Session σ} (h : Move e a s s')
    (ha : ∀ q, a ≠ .decided q) : s'.decisions = s.decisions := by
  cases a with
  | remarked => obtain ⟨_, _, _, rfl⟩ := h; rfl
  | rooted m => obtain ⟨_, rfl⟩ := h; rfl
  | used => cases h; rfl
  | decided q => exact absurd rfl (ha q)
  | recursed r signalled =>
    obtain ⟨_, hc⟩ := h.recursed
    cases hc <;> rfl
  | fetched r =>
    obtain ⟨_, _, hc, ⟨_, rfl⟩ | ⟨_, _, rfl⟩⟩ := h.fetched <;> cases hc <;> rfl
  | entered path =>
    obtain ⟨_, hc⟩ := h.entered
    cases hc <;> rfl
  | drained => cases h; rfl

namespace Engine

variable {e : Engine σ} {s s' : Session σ}

/-- A decision that is remembered stands. -/
theorem stands_of_lookup (hs : e.Remembers s) {q : Query} {d : Decision} (h : s.decisions.lookup q.key = some d) :
    e.Stands q d := by
  obtain ⟨l₁, l₂, hl, _⟩ := List.lookup_eq_some_iff.1 h
  exact hs _ _ (by simp [hl])

/-- A decision that is asked for stands. -/
theorem stands_of_decide (hs : e.Remembers s) {q : Query} {d : Decision} (h : ends (e.decide q) s = (.ok d, s')) :
    e.Stands q d := by
  rcases e.ends_decide q s with ⟨d', hd', hq⟩ | ⟨_, _, hq⟩
  · obtain rfl : d' = d := by simpa using (Prod.ext_iff.1 (hq.symm.trans h)).1
    exact stands_of_lookup hs hd'
  · obtain rfl : e.policy.decide q = d := by simpa using (Prod.ext_iff.1 (hq.symm.trans h)).1
    exact ⟨q, rfl, rfl⟩

/-- Whatever happens, all decisions that are remembered were rendered by the policy. -/
theorem Remembers.move (hs : e.Remembers s) {a : Action} (h : Move e a s s') : e.Remembers s' := by
  by_cases ha : ∃ q, a = .decided q
  · obtain ⟨q, rfl⟩ := ha
    rcases e.ends_decide q s with ⟨d, _, hq⟩ | ⟨_, events, hq⟩
    · obtain rfl : s' = s := h.trans (congrArg Prod.snd hq)
      exact hs
    · obtain rfl := h.trans (congrArg Prod.snd hq)
      intro k d hkd
      rcases List.mem_cons.1 hkd with hkd | hkd
      · obtain ⟨rfl, rfl⟩ := Prod.mk.inj hkd
        exact ⟨q, rfl, rfl⟩
      · exact hs k d hkd
  · have hd := Move.decisions_eq h fun q hq => ha ⟨q, hq⟩
    intro k d hkd
    exact hs k d (hd ▸ hkd)

/-- After any run the remembered decisions are those of the policy. -/
theorem Remembers.moves (hs : e.Remembers s) {allowed : Action → Prop} (h : Moves e allowed s s') :
    e.Remembers s' :=
  h.keeps (fun _ _ _ _ hm hs => hs.move hm) hs

/-- A session that has decided nothing remembers nothing wrong. -/
theorem Remembers.of_nil (h : s.decisions = []) : e.Remembers s := by
  intro k d hkd
  simp [h] at hkd

end Engine

/-! ## Steps as runs of actions -/

/-- From `s` a step is a run of allowed actions; if it comes to a value, `post` holds of the value and of the session
that is left. -/
def Step.Leads (e : Engine σ) (allowed : Action → Prop) {α : Type} (x : Step σ α) (s : Session σ)
    (post : α → Session σ → Prop) : Prop :=
  Moves e allowed s (ends x s).2 ∧ ∀ a s', ends x s = (.ok a, s') → post a s'

namespace Step.Leads

variable {α β : Type} {e : Engine σ} {allowed : Action → Prop} {s : Session σ} {post : α → Session σ → Prop}

/-- A step that ends with a value and one run. -/
theorem of_ends_ok {x : Step σ α} {a : α} {s' : Session σ} (h : ends x s = (.ok a, s')) (hm : Moves e allowed s s')
    (hp : post a s') : Leads e allowed x s post := by
  refine ⟨by rw [h]; exact hm, fun b s₁ hb => ?_⟩
  obtain ⟨hab, rfl⟩ := Prod.mk.inj (h.symm.trans hb)
  cases hab
  exact hp

/-- A step that ends in an error after a run. -/
theorem of_ends_error {x : Step σ α} {err : Error} {s' : Session σ} (h : ends x s = (.error err, s'))
    (hm : Moves e allowed s s') : Leads e allowed x s post := by
  refine ⟨by rw [h]; exact hm, fun b s₁ hb => ?_⟩
  cases (Prod.mk.inj (h.symm.trans hb)).1

/-- Coming to a value needs nothing to happen. -/
theorem pure {a : α} (hp : post a s) : Leads e allowed (Pure.pure a) s post :=
  of_ends_ok (ends_pure a s) (.refl s) hp

/-- Ending in an error needs nothing to happen. -/
theorem throw (err : Error) : Leads e allowed (MonadExcept.throw err : Step σ α) s post :=
  of_ends_error (ends_throw err s) (.refl s)

/-- Doing something to the session is one action. -/
theorem update (a : Action) {f : Session σ → Session σ} {post : Unit → Session σ → Prop} (ha : allowed a)
    (hm : Move e a s (f s)) (hp : post () (f s)) : Leads e allowed (Engine.update f) s post :=
  of_ends_ok (ends_update f s) (.single a ha hm) hp

/-- Doing something of which nothing more is said. -/
theorem act (a : Action) {f : Session σ → Session σ} (ha : allowed a) (hm : Move e a s (f s)) :
    Leads e allowed (Engine.update f) s fun _ _ => True :=
  update a ha hm trivial

/-- A step behind another starts where that has led to. -/
theorem bind {x : Step σ α} {f : α → Step σ β} {mid : α → Session σ → Prop} {post : β → Session σ → Prop}
    (hx : Leads e allowed x s mid)
    (hf : ∀ a s₁, Moves e allowed s s₁ → mid a s₁ → Leads e allowed (f a) s₁ post) :
    Leads e allowed (x >>= f) s post := by
  obtain ⟨hm, hmid⟩ := hx
  rcases h : ends x s with ⟨err | a, s₁⟩
  · exact of_ends_error (ends_bind_error h f) (by rw [h] at hm; exact hm)
  · rw [h] at hm
    obtain ⟨hm', hp⟩ := hf a s₁ hm (hmid a s₁ h)
    exact ⟨by rw [ends_bind_ok h]; exact hm.trans hm', fun b s₂ hb => hp b s₂ (by rw [← ends_bind_ok h]; exact hb)⟩

/-- Looking at the session changes nothing. -/
theorem get_bind {f : Session σ → Step σ β} {post : β → Session σ → Prop} (h : Leads e allowed (f s) s post) :
    Leads e allowed (get >>= f) s post := by
  rw [Leads, ends_bind_ok (ends_get s)]
  exact h

/-- An error ends the steps behind it. -/
theorem throw_bind (err : Error) (f : α → Step σ β) {post : β → Session σ → Prop} :
    Leads e allowed (MonadExcept.throw err >>= f) s post :=
  of_ends_error (ends_bind_error (ends_throw err s) f) (.refl s)

/-- What a step comes to may be said less exactly. -/
theorem weaken {x : Step σ α} {post' : α → Session σ → Prop} (hx : Leads e allowed x s post)
    (h : ∀ a s', Moves e allowed s s' → post a s' → post' a s') : Leads e allowed x s post' := by
  refine ⟨hx.1, fun a s' ha => h a s' ?_ (hx.2 a s' ha)⟩
  have hm := hx.1
  rw [ha] at hm
  exact hm

/-- What is allowed may be allowed by a weaker rule. -/
theorem mono {allowed' : Action → Prop} {x : Step σ α} (hx : Leads e allowed x s post)
    (h : ∀ a, allowed a → allowed' a) : Leads e allowed' x s post :=
  ⟨hx.1.mono h, hx.2⟩

/-- Rewording errors changes nothing of this. -/
theorem adapt (g : Error → Error) {x : Step σ α} (hx : Leads e allowed x s post) :
    Leads e allowed (ExceptT.adapt g x) s post := by
  refine ⟨by rw [ends_adapt]; exact hx.1, fun a s' ha => ?_⟩
  rw [ends_adapt] at ha
  rcases h : ends x s with ⟨err | b, s₁⟩ <;> rw [h] at ha
  · cases (Prod.mk.inj ha).1
  · obtain ⟨hb, rfl⟩ := Prod.mk.inj ha
    cases hb
    exact hx.2 _ _ h

/-- Steps for all members of a list, one after the other, in sessions that keep a property. What each of them achieves must
outlast the others. -/
theorem forM_of_keeps {I : Session σ → Prop} {xs : List α} {f : α → Step σ PUnit} {P : α → Session σ → Prop}
    (hI : ∀ s s', Moves e allowed s s' → I s → I s') (hs : I s)
    (hf : ∀ x ∈ xs, ∀ s, I s → Leads e allowed (f x) s fun _ s' => P x s')
    (hP : ∀ x s s', Moves e allowed s s' → P x s → P x s') :
    Leads e allowed (xs.forM f) s fun _ s' => ∀ x ∈ xs, P x s' := by
  induction xs generalizing s with
  | nil => exact .pure (by simp)
  | cons x xs ih =>
    refine bind (hf x (by simp) s hs) fun _ s₁ hm hx => ?_
    refine (ih (hI s s₁ hm hs) fun y hy => hf y (List.mem_cons_of_mem x hy)).weaken fun _ s₂ hm' hxs => ?_
    intro y hy
    rcases List.mem_cons.1 hy with rfl | hy
    · exact hP y s₁ s₂ hm' hx
    · exact hxs y hy

/-- The sessions remember only decisions that the policy rendered. -/
theorem forM {xs : List α} {f : α → Step σ PUnit} {P : α → Session σ → Prop} (hs : e.Remembers s)
    (hf : ∀ x ∈ xs, ∀ s, e.Remembers s → Leads e allowed (f x) s fun _ s' => P x s')
    (hP : ∀ x s s', Moves e allowed s s' → P x s → P x s') :
    Leads e allowed (xs.forM f) s fun _ s' => ∀ x ∈ xs, P x s' :=
  forM_of_keeps (I := e.Remembers) (fun _ _ hm hs => hs.moves hm) hs hf hP

end Step.Leads

end ImportClosure
