import ImportClosure.Proofs.Builders
import ImportClosure.Proofs.Operations
import ImportClosure.Proofs.Registry
import Mathlib.Data.List.Induction

/-!
# Roots

Whatever is done to a session, and whichever errors end it, every root is a module that is kept, and it is an entry or was
asked for by a path that the policy included (`roots_admitted`). `Step.Keeps` carries this through the steps of a walk:
between them the session may change at will as long as no module becomes a root that may not be one.
-/

namespace ImportClosure

variable {σ : Type}

open Step

/-! ## Steps that keep a property -/

/-- A step keeps a property of sessions, whatever it comes to; if it comes to a value, `post` holds of the value and of the
session that is left. -/
def Step.Keeps (I : Session σ → Prop) {α : Type} (x : Step σ α) (s : Session σ) (post : α → Session σ → Prop) : Prop :=
  I (ends x s).2 ∧ ∀ a s', ends x s = (.ok a, s') → post a s'

namespace Step.Keeps

variable {α β : Type} {I : Session σ → Prop} {s : Session σ} {post : α → Session σ → Prop}

theorem pure {a : α} (hs : I s) (hp : post a s) : Keeps I (Pure.pure a) s post := by
  refine ⟨hs, fun b s' h => ?_⟩
  cases h
  exact hp

theorem throw (err : Error) (hs : I s) : Keeps I (MonadExcept.throw err : Step σ α) s post :=
  ⟨hs, fun _ _ h => nomatch h⟩

theorem update {f : Session σ → Session σ} (hs : I (f s)) : Keeps I (Engine.update f) s fun _ _ => True :=
  ⟨hs, fun _ _ _ => trivial⟩

/-- What the second step needs is what the first one has come to. -/
theorem bind {x : Step σ α} {f : α → Step σ β} {mid : α → Session σ → Prop} {post : β → Session σ → Prop}
    (hx : Keeps I x s mid) (hf : ∀ a s', I s' → mid a s' → Keeps I (f a) s' post) : Keeps I (x >>= f) s post := by
  obtain ⟨hs, hmid⟩ := hx
  rcases h : ends x s with ⟨err | a, s₁⟩ <;> rw [h] at hs
  · refine ⟨by rw [ends_bind_error h]; exact hs, fun b s₂ hb => ?_⟩
    rw [ends_bind_error h] at hb
    cases hb
  · rw [Keeps, ends_bind_ok h]
    exact hf a s₁ hs (hmid a s₁ h)

/-- An error ends the steps behind it. -/
theorem throw_bind (err : Error) (f : α → Step σ β) {post : β → Session σ → Prop} (hs : I s) :
    Keeps I (MonadExcept.throw err >>= f) s post := by
  rw [Keeps, ends_bind_error (ends_throw err s)]
  exact ⟨hs, fun _ _ h => nomatch h⟩

/-- More may be forgotten of what is kept, and of what a step has come to. -/
theorem weaken {I' : Session σ → Prop} {post' : α → Session σ → Prop} {x : Step σ α} (hx : Keeps I x s post)
    (hI : ∀ s, I s → I' s) (hp : ∀ a s, post a s → post' a s) : Keeps I' x s post' :=
  ⟨hI _ hx.1, fun a s' h => hp a s' (hx.2 a s' h)⟩

/-- What a step comes to may be known from elsewhere. -/
theorem of_ends {x : Step σ α} (hx : Keeps I x s fun _ _ => True) (hp : ∀ a s', ends x s = (.ok a, s') → post a s') :
    Keeps I x s post :=
  ⟨hx.1, hp⟩

/-- What each of some steps keeps all of them keep. -/
theorem forM {xs : List α} {f : α → Step σ PUnit} (hf : ∀ x ∈ xs, ∀ s, I s → Keeps I (f x) s fun _ _ => True)
    (hs : I s) : Keeps I (xs.forM f) s fun _ _ => True := by
  induction xs generalizing s with
  | nil => exact .pure hs trivial
  | cons x xs ih =>
    refine bind (hf x List.mem_cons_self s hs) fun _ s₁ hs₁ _ => ?_
    exact ih (fun y hy => hf y (List.mem_cons_of_mem x hy)) hs₁

/-- A run of actions that keep a property keeps it. -/
theorem of_leads {e : Engine σ} {allowed : Action → Prop} {x : Step σ α} (hx : Leads e allowed x s post)
    (hI : ∀ a s s', allowed a → Move e a s s' → I s → I s') (hs : I s) : Keeps I x s post :=
  ⟨hx.1.keeps hI hs, hx.2⟩

end Step.Keeps

/-! ## Decisions that are remembered -/

/-- A decision that is remembered stays as it is. -/
theorem Move.lookup_mono {e : Engine σ} {a : Action} {s s' : Session σ} (h : Move e a s s') {k : QueryKey} {d : Decision}
    (hd : s.decisions.lookup k = some d) : s'.decisions.lookup k = some d := by
  by_cases ha : ∃ q, a = .decided q
  · obtain ⟨q, rfl⟩ := ha
    rcases e.ends_decide q s with ⟨_, _, hq⟩ | ⟨hnone, _, hq⟩
    · obtain rfl : s' = s := h.trans (congrArg Prod.snd hq)
      exact hd
    · obtain rfl := h.trans (congrArg Prod.snd hq)
      have hne : (k == q.key) = false := by
        rw [beq_eq_false_iff_ne]
        rintro rfl
        rw [hnone] at hd
        cases hd
      rw [List.lookup_cons, hne]
      exact hd
  · rw [h.decisions_eq fun q hq => ha ⟨q, hq⟩]
    exact hd

/-! ## The invariant -/

/-- A builder gives its records under the identity that is requested. -/
def Builder.IdentifiesAsked (b : Builder σ) : Prop :=
  ∀ r x o, (b.build r x).1.result = .ok (some o) → o.record.identity = r.identity

/-- Over such a builder what is got has the identity that was asked for. -/
theorem Recursed.identity_of_got {e : Engine σ} (hb : e.builder.IdentifiesAsked) {r : RecursionRequest}
    {signalled : Bool} {m : ModuleRecord} {s s' : Session σ} (hr : Recursed e r signalled s (.ok (some m)) s') :
    m.identity = r.identity := by
  cases hr with
  | known hk => exact Cache.identity_of_find? hk
  | built events hnone hres => exact Cache.identity_add.trans (hb _ _ _ hres)

/-- A module that is no entry may be a root: it was asked for by a path, and the policy included it; it stands for more
than a directory, and as an extension module it goes with a self-contained artifact. -/
structure Engine.AdmitsRoot (e : Engine σ) (s : Session σ) (m : ModuleRecord) : Prop where
  decided : ∃ kind reason, s.decisions.lookup ⟨m.name, m.file.place, kind, true⟩ = some (.included reason)
  not_namespace : m.isNamespacePackage = false
  not_extension_package : ¬ (m.isPackage = true ∧ m.kind = .extension)
  standalone : m.kind = .extension → e.policy.options.standalone = true

/-- The roots are kept, no two of them have one identity, and each of them is an entry or may be a root. -/
structure Rooted (e : Engine σ) (isEntry : ModuleRecord → Prop) (s : Session σ) : Prop where
  remembers : e.Remembers s
  nodup : (s.registry.roots.map ModuleRecord.identity).Nodup
  kept : ∀ m ∈ s.registry.roots, s.cache.find? m.identity = some m
  admitted : ∀ m ∈ s.registry.roots, isEntry m ∨ e.AdmitsRoot s m

section Steps

variable {e : Engine σ} {isEntry : ModuleRecord → Prop} {s s' : Session σ} {m : ModuleRecord}

/-- A module that may be a root may be one from then on. -/
theorem Engine.AdmitsRoot.move (h : e.AdmitsRoot s m) {a : Action} (hm : Move e a s s') : e.AdmitsRoot s' m := by
  obtain ⟨kind, reason, hd⟩ := h.decided
  exact { h with decided := ⟨kind, reason, hm.lookup_mono hd⟩ }

namespace Rooted

theorem fresh (x : σ) : Rooted e isEntry (.fresh x) where
  remembers := .of_nil rfl
  nodup := List.nodup_nil
  kept _ hm := nomatch hm
  admitted _ hm := nomatch hm

/-- More modules may count as entries. -/
theorem mono {isEntry' : ModuleRecord → Prop} (h : Rooted e isEntry s) (hle : ∀ m, isEntry m → isEntry' m) :
    Rooted e isEntry' s :=
  { h with admitted := fun m hm => (h.admitted m hm).imp (hle m) id }

/-- An action that makes no module a root keeps the roots in order. -/
theorem move (h : Rooted e isEntry s) {a : Action} (ha : a.sparesRoots = true) (hm : Move e a s s') :
    Rooted e isEntry s' := by
  refine ⟨h.remembers.move hm, ?_, ?_, ?_⟩ <;> rw [hm.roots_eq ha]
  · exact h.nodup
  · exact fun m hmem => hm.find?_mono (h.kept m hmem)
  · exact fun m hmem => (h.admitted m hmem).imp id fun h => h.move hm

/-- A module that is kept and may be a root may become one. -/
theorem add (h : Rooted e isEntry s) (hk : s'.cache.find? m.identity = some m) (hm : isEntry m ∨ e.AdmitsRoot s' m)
    (hroots : s'.registry.roots = (s.registry.addRoot m).roots) (hremembers : e.Remembers s')
    (hmono : ∀ n, s.cache.find? n.identity = some n → s'.cache.find? n.identity = some n)
    (hadmits : ∀ n, e.AdmitsRoot s n → e.AdmitsRoot s' n) : Rooted e isEntry s' := by
  rw [Registry.roots_addRoot] at hroots
  cases hroot : s.registry.isRoot m.identity with
  | true =>
    rw [hroot, if_pos rfl] at hroots
    refine ⟨hremembers, ?_, ?_, ?_⟩ <;> rw [hroots]
    · exact h.nodup
    · exact fun n hn => hmono n (h.kept n hn)
    · exact fun n hn => (h.admitted n hn).imp id (hadmits n)
  | false =>
    rw [hroot, if_neg Bool.false_ne_true] at hroots
    have hnew : m.identity ∉ s.registry.roots.map ModuleRecord.identity := by
      intro hmem
      obtain ⟨n, hn, hid⟩ := List.mem_map.1 hmem
      rw [Registry.isRoot_iff.2 ⟨n, hn, hid⟩] at hroot
      cases hroot
    refine ⟨hremembers, ?_, ?_, ?_⟩ <;> rw [hroots]
    · rw [List.map_append, List.map_singleton]
      exact List.nodup_append.2 ⟨h.nodup, by simp, fun i hi j hj heq => hnew (by simp_all)⟩
    · intro n hn
      rcases List.mem_append.1 hn with hn | hn
      · exact hmono n (h.kept n hn)
      · rw [List.mem_singleton.1 hn]
        exact hk
    · intro n hn
      rcases List.mem_append.1 hn with hn | hn
      · exact (h.admitted n hn).imp id (hadmits n)
      · rw [List.mem_singleton.1 hn]
        exact hm

/-- Building an entry keeps the roots in order, if what it gives counts as an entry. -/
theorem entered (h : Rooted e isEntry s) {path : Path} {result : Except Error ModuleRecord}
    (hr : ends (e.addEntry path) s = (result, s')) (hentry : ∀ m, result = .ok m → isEntry m) :
    Rooted e isEntry s' := by
  have hmove : Move e (.entered path) s s' := (congrArg Prod.snd hr).symm
  have hentered := Engine.entered_of_ends hr
  cases hentered with
  | failed => exact ⟨h.remembers, h.nodup, h.kept, fun m hm => (h.admitted m hm).imp id fun hm => hm.move hmove⟩
  | @built o events hb =>
    refine h.add (m := (s.cache.add (e.entryRecord o.record)).1) ?_ (Or.inl (hentry _ rfl)) rfl
      (h.remembers.move hmove) (fun n => hmove.find?_mono) fun n hn => hn.move hmove
    rw [Cache.identity_add]
    exact Cache.find?_add_self

end Rooted

/-! ## Walks -/

/-- The roots are in order, and a module is kept that a path was decided to lead to. -/
structure Included (e : Engine σ) (isEntry : ModuleRecord → Prop) (m : ModuleRecord) (s : Session σ) : Prop where
  rooted : Rooted e isEntry s
  kept : s.cache.find? m.identity = some m
  decided : ∃ kind reason, s.decisions.lookup ⟨m.name, m.file.place, kind, true⟩ = some (.included reason)

namespace Included

theorem move (h : Included e isEntry m s) {a : Action} (ha : a.sparesRoots = true) (hm : Move e a s s') :
    Included e isEntry m s' := by
  obtain ⟨kind, reason, hd⟩ := h.decided
  exact ⟨h.rooted.move ha hm, hm.find?_mono h.kept, kind, reason, hm.lookup_mono hd⟩

/-- The module becomes a root. -/
theorem addRoot (h : Included e isEntry m s) (hnamespace : m.isNamespacePackage = false)
    (hpackage : ¬ (m.isPackage = true ∧ m.kind = .extension))
    (hstandalone : m.kind = .extension → e.policy.options.standalone = true) : Included e isEntry m (s.addRoot m) := by
  have hmove : Move e (.rooted m) s (s.addRoot m) := ⟨h.kept, rfl⟩
  have hadmits : e.AdmitsRoot (s.addRoot m) m := ⟨h.decided, hnamespace, hpackage, hstandalone⟩
  refine ⟨h.rooted.add h.kept (Or.inr hadmits) rfl (h.rooted.remembers.move hmove) (fun n hn => hn) fun n hn => ?_,
    h.kept, h.decided⟩
  exact hn.move hmove

end Included

/-- Remarks keep a property that all actions keep which make no module a root. -/
theorem Step.Keeps.of_remarks {α : Type} {I : Session σ → Prop} {x : Step σ α} {post : α → Session σ → Prop}
    (hI : ∀ a s s', a.sparesRoots = true → Move e a s s' → I s → I s') (hs : I s)
    (hx : Leads e (fun a => a = .remarked) x s post) : Keeps I x s post :=
  .of_leads hx (fun a s s' ha hm h => hI a s s' (by rw [ha]; rfl) hm h) hs

namespace Engine

theorem openPackage_keeps (h : Included e isEntry m s) (hkind : m.kind ≠ .extension) :
    Keeps (Included e isEntry m) (openPackage m) s fun _ _ => True := by
  unfold openPackage
  cases hn : m.isNamespacePackage with
  | true => exact .pure h trivial
  | false =>
    refine .bind (.update (h.addRoot hn (fun hp => hkind hp.2) fun hk => absurd hk hkind)) fun _ s₁ hs₁ _ => ?_
    split
    · exact .pure hs₁ trivial
    · exact .throw _ hs₁

/-- Registering an included module makes it a root only if it may be one. -/
theorem registerIncluded_keeps (h : Included e isEntry m s) :
    Keeps (Included e isEntry m) (e.registerIncluded m) s fun _ _ => True := by
  have hmove : ∀ a s s', a.sparesRoots = true → Move e a s s' → Included e isEntry m s → Included e isEntry m s' :=
    fun a s s' ha hm h => h.move ha hm
  unfold registerIncluded
  refine .bind (.of_remarks hmove h (trace_leads _ rfl)) fun _ s₁ hs₁ _ => ?_
  refine .bind (.update (by rw [keep_eq hs₁.kept]; exact hs₁)) fun _ s₂ hs₂ _ => ?_
  dsimp only
  split
  next hp =>
    split
    next => exact .throw_bind _ _ hs₂
    next hkind =>
      refine .bind (openPackage_keeps hs₂ hkind) fun dir s₃ hs₃ _ => ?_
      refine .bind (.of_remarks hmove hs₃ (trace_leads _ rfl)) fun _ s₄ hs₄ _ => ?_
      exact .bind (.of_remarks hmove hs₄ (namesIn_leads dir)) fun names s₅ hs₅ _ => .pure hs₅ trivial
  next hp =>
    split
    next hroot =>
      refine .bind (.update (hs₂.addRoot ?_ (fun hn => hp hn.1) fun hkind => ?_)) fun _ s₃ hs₃ _ => .pure hs₃ trivial
      · simp [ModuleRecord.isNamespacePackage, hp]
      · simpa [hkind] using hroot
    next => exact .pure hs₂ trivial

/-- A module that is fetched has the identity that was decided about. -/
theorem fetch_keeps (hb : e.builder.IdentifiesAsked) (h : Rooted e isEntry s) {r : RecursionRequest} {q : Query}
    (hr : r.AsksFor q) {reason : Reason}
    (hd : s.decisions.lookup ⟨q.name, q.file.place, q.kind, true⟩ = some (.included reason)) :
    Keeps (Rooted e isEntry) (e.fetch r) s fun found s' => ∀ m, found = some m → Included e isEntry m s' := by
  have hmove : Move e (.fetched r) s (ends (e.fetch r) s).2 := rfl
  refine ⟨h.move rfl hmove, fun found s' hf m hm => ?_⟩
  subst hm
  obtain ⟨result, s₁, hc, hends⟩ := e.fetched r s
  obtain ⟨rfl, rfl⟩ := Prod.mk.inj (hends.symm.trans hf)
  have hid : m.identity = q.identity := (hc.identity_of_got hb).trans hr.identity_eq
  have hname : m.name = q.name := congrArg Identity.name hid
  have hplace : m.file.place = q.file.place := congrArg Identity.place hid
  rw [hf] at hmove
  refine ⟨h.move rfl hmove, hc.find?_eq, q.kind, reason, ?_⟩
  rw [hname, hplace]
  exact hmove.lookup_mono hd

/-- Walking a path makes a module a root only if it may be one. -/
theorem walkSingle_keeps (hb : e.builder.IdentifiesAsked) (h : Rooted e isEntry s) (path : Path)
    (package : Option ModuleName) : Keeps (Rooted e isEntry) (e.walkSingle path package) s fun _ _ => True := by
  have hmove : ∀ a s s', a.sparesRoots = true → Move e a s s' → Rooted e isEntry s → Rooted e isEntry s' :=
    fun a s s' ha hm h => h.move ha hm
  unfold walkSingle
  refine .bind (.of_remarks hmove h (trace_leads _ rfl)) fun _ s₁ hs₁ _ => ?_
  split
  next => exact .pure hs₁ trivial
  next bare kind _ =>
    refine .bind (.of_remarks hmove hs₁ (reportExtension_leads _ _ rfl)) fun _ s₂ hs₂ _ => ?_
    let q : Query := ⟨.ofPath e.tree.workDir path, .inPackage bare package, kind, true⟩
    have hdecide : Keeps (Rooted e isEntry) (e.decide q) s₂ fun d s' => s'.decisions.lookup q.key = some d :=
      ⟨hs₂.move (a := .decided q) rfl rfl, fun d s' hd => lookup_of_decide hd⟩
    refine .bind hdecide fun d s₃ hs₃ hd => ?_
    cases d with
    | included reason =>
      refine .bind (fetch_keeps hb hs₃ (q := q) ⟨rfl, rfl, rfl⟩ hd) fun found s₄ hs₄ hfound => ?_
      cases found with
      | some m => exact (registerIncluded_keeps (hfound m rfl)).weaken (fun _ h => h.rooted) fun _ _ _ => trivial
      | none => exact (Keeps.of_remarks hmove hs₄ (includeFailed_leads _ rfl)).weaken (fun _ h => h) fun _ _ _ => trivial
    | excluded reason | undecided reason =>
      exact .bind (.of_remarks hmove hs₃ (diagnose_leads _ rfl)) fun _ s₄ hs₄ _ => .pure hs₄ trivial

/-- Walking an item makes a module a root only if it may be one. -/
theorem expand_keeps (hb : e.builder.IdentifiesAsked) (h : Rooted e isEntry s) (item : WalkItem) :
    Keeps (Rooted e isEntry) (e.expand item) s fun _ _ => True := by
  have hmove : ∀ a s s', a.sparesRoots = true → Move e a s s' → Rooted e isEntry s → Rooted e isEntry s' :=
    fun a s s' ha hm h => h.move ha hm
  cases item with
  | single path package => exact walkSingle_keeps hb h path package
  | path path package =>
    exact (Keeps.of_remarks hmove h (walkPath_leads path package rfl)).weaken (fun _ h => h) fun _ _ _ => trivial
  | pattern text =>
    exact (Keeps.of_remarks hmove h (walkPattern_leads text rfl)).weaken (fun _ h => h) fun _ _ _ => trivial

/-- So does walking what is on a stack. -/
theorem walkStack_keeps (hb : e.builder.IdentifiesAsked) (bound : Nat) (items : List WalkItem) (h : Rooted e isEntry s) :
    Keeps (Rooted e isEntry) (e.walkStack bound items) s fun _ _ => True := by
  induction bound generalizing items s with
  | zero =>
    cases items with
    | nil => exact .pure h trivial
    | cons item rest => exact .throw _ h
  | succ bound ih =>
    cases items with
    | nil => exact .pure h trivial
    | cons item rest => exact .bind (expand_keeps hb h item) fun children s₁ hs₁ _ => ih (children ++ rest) hs₁

/-- A walk keeps the roots in order, also if it stops midway. -/
theorem walk_keeps (hb : e.builder.IdentifiesAsked) (h : Rooted e isEntry s) (item : WalkItem) :
    Keeps (Rooted e isEntry) (e.walk item) s fun _ _ => True :=
  .bind (expand_keeps hb h item) fun items _ hs _ => walkStack_keeps hb _ items hs

/-! ## Operations -/

/-- Consuming modules makes none of them a root. -/
theorem runPass_sparesRoots (hs : e.Remembers s) :
    Leads e (fun a => a.sparesRoots = true) e.runPass s fun _ _ => True := by
  refine runPass_leads hs rfl fun a ha => ?_
  obtain ⟨_, _, ha⟩ := ha
  cases a with
  | rooted | entered => exact ha.elim
  | _ => rfl

/-- A run to the fixed point makes no module a root. -/
theorem runToFixedPoint_sparesRoots (hs : e.Remembers s) (bound : Nat) :
    Leads e (fun a => a.sparesRoots = true) (e.runToFixedPoint bound) s fun _ _ => True :=
  runToFixedPoint_leads (fun _ _ hm hs => hs.moves hm) (fun _ hs => runPass_sparesRoots hs) rfl bound hs

/-- An operation keeps the roots in order, if what it gives as an entry counts as one. -/
theorem perform_keeps (hb : e.builder.IdentifiesAsked) (h : Rooted e isEntry s) (op : Operation)
    (hentry : ∀ path m s', op = .addEntry path → ends (e.addEntry path) s = (.ok m, s') → isEntry m) :
    Keeps (Rooted e isEntry) (op.perform e) s fun _ _ => True := by
  have hmove : ∀ a s s', a.sparesRoots = true → Move e a s s' → Rooted e isEntry s → Rooted e isEntry s' :=
    fun a s s' ha hm h => h.move ha hm
  cases op with
  | addEntry path =>
    have hadd : Keeps (Rooted e isEntry) (e.addEntry path) s fun _ _ => True := by
      refine ⟨h.entered rfl fun m hm => ?_, fun _ _ _ => trivial⟩
      exact hentry path m (ends (e.addEntry path) s).2 rfl (Prod.ext hm rfl)
    exact .bind hadd fun _ _ hs _ => .pure hs trivial
  | walk item => exact walk_keeps hb h item
  | seed includes base =>
    refine .bind (.forM (fun p _ s hs => walk_keeps hb hs _) h) fun _ s₁ hs₁ _ => ?_
    exact .forM (fun p _ s hs => walk_keeps hb hs _) hs₁
  | pass => exact .bind (.of_leads (runPass_sparesRoots h.remembers) hmove h) fun _ _ hs _ => .pure hs trivial
  | run bound =>
    exact .bind (.of_leads (runToFixedPoint_sparesRoots h.remembers bound) hmove h) fun _ _ hs _ => .pure hs trivial
  | consider m edges =>
    refine (Keeps.of_leads (consider_leads h.remembers) (fun a s s' ha hm h => h.move ?_ hm) h).weaken
      (fun _ h => h) fun _ _ _ => trivial
    cases a with
    | rooted | entered => exact ha.elim
    | _ => rfl
  | recurse r signalled =>
    have hrecurse : Keeps (Rooted e isEntry) (e.recurse r signalled) s fun _ _ => True :=
      ⟨h.move (a := .recursed r signalled) rfl rfl, fun _ _ _ => trivial⟩
    exact .bind hrecurse fun _ _ hs _ => .pure hs trivial
  | decide q =>
    have hdecide : Keeps (Rooted e isEntry) (e.decide q) s fun _ _ => True :=
      ⟨h.move (a := .decided q) rfl rfl, fun _ _ _ => trivial⟩
    exact .bind hdecide fun _ _ hs _ => .pure hs trivial

/-- A module was made an entry: one of the operations gives it as the entry. -/
def MadeEntry (e : Engine σ) (ops : List Operation) (s : Session σ) (m : ModuleRecord) : Prop :=
  ∃ before path behind s', ops = before ++ .addEntry path :: behind ∧
    ends (e.addEntry path) (e.after before s) = (.ok m, s')

/-- Whatever is done to a session, its roots are in order. -/
theorem rooted_after (hb : e.builder.IdentifiesAsked) (x : σ) (ops : List Operation) :
    Rooted e (e.MadeEntry ops (.fresh x)) (e.after ops (.fresh x)) := by
  induction ops using List.reverseRecOn with
  | nil => exact .fresh x
  | append_singleton ops op ih =>
    rw [show e.after (ops ++ [op]) (.fresh x) = e.next (e.after ops (.fresh x)) op from List.foldl_append]
    refine (perform_keeps hb (ih.mono fun m hm => ?_) op fun path m s' hop hm => ?_).1
    · obtain ⟨before, path, behind, s', rfl, hm⟩ := hm
      exact ⟨before, path, behind ++ [op], s', by simp, hm⟩
    · exact ⟨ops, path, [], s', by rw [hop], hm⟩

/-- The report of a run is about the session that the run leaves. -/
theorem exists_report_of_runToFixedPoint {bound : Nat} {report : Report}
    (h : ends (e.runToFixedPoint bound) s = (.ok (some report), s')) : ∃ passes, report = e.report s' passes := by
  obtain ⟨answer, s₁, _, h⟩ := exists_of_ends_bind h
  cases answer with
  | none => cases h
  | some passes =>
    cases h
    exact ⟨passes, rfl⟩

end Engine

end Steps

/-- Over a builder that gives its records under the identity that is requested, whatever the plugins and the policy: after
any operations, failed ones included, no two roots have one identity, every root is kept, and every root that was not made
an entry may be a root. A report of a run behind them marks exactly the modules that are roots then. -/
theorem roots_admitted {e : Engine σ} (hb : e.builder.IdentifiesAsked) (x : σ) (ops : List Operation) :
    let s := e.after ops (.fresh x)
    (s.registry.roots.map ModuleRecord.identity).Nodup ∧
      (∀ m ∈ s.registry.roots, s.cache.find? m.identity = some m) ∧
      (∀ m ∈ s.registry.roots, e.MadeEntry ops (.fresh x) m ∨ e.AdmitsRoot s m) ∧
      ∀ bound report s', ends (e.runToFixedPoint bound) s = (.ok (some report), s') →
        (∀ module ∈ report.modules,
          module.isRoot = true ↔ ∃ m ∈ s'.registry.roots, m.identity = module.record.identity) ∧
        ∀ m ∈ s'.registry.roots, ∃ module ∈ report.modules, module.record = m ∧ module.isRoot = true := by
  intro s
  have h := Engine.rooted_after hb x ops
  refine ⟨h.nodup, h.kept, h.admitted, fun bound report s' hrun => ?_⟩
  obtain ⟨passes, rfl⟩ := Engine.exists_report_of_runToFixedPoint hrun
  have hs' : Rooted e (e.MadeEntry ops (.fresh x)) s' := by
    have hkeeps := (Engine.runToFixedPoint_sparesRoots h.remembers bound).1.keeps (fun _ _ _ ha hm h => h.move ha hm) h
    rwa [show ends (e.runToFixedPoint bound) _ = _ from hrun] at hkeeps
  constructor
  · intro module hmem
    obtain ⟨m, _, rfl⟩ := List.mem_map.1 hmem
    exact Registry.isRoot_iff
  · intro m hm
    have hcache : m ∈ s'.cache.modules := List.mem_of_find?_eq_some (hs'.kept m hm)
    refine ⟨_, List.mem_map.2 ⟨m, List.mem_mergeSort.2 hcache, rfl⟩, rfl, ?_⟩
    exact Registry.isRoot_iff.2 ⟨m, hm, rfl⟩

/-- An engine over two modules, the second of which cannot be built. -/
def secondBroken : Engine (List BuildRequest) where
  policy := { options := {}, followTo := [], nofollowTo := [], bytecodeModules := [] }
  tree := ((FileTree.empty ⟨"/w"⟩).add ["w", "first.py"] (.text "")).add ["w", "second.py"] (.text "")
  builder := .ofTable [(⟨"first"⟩, {}), (⟨"second"⟩, { error := some "broken" }), (.main, {})]

/-- A walk that stops at the second module leaves the roots in order, as does the entry behind it. -/
theorem roots_admitted_brokenWalk :
    let e := secondBroken
    let ops : List Operation := [.seed { paths := ["first.py", "second.py"] } ⟨"/w"⟩, .addEntry ⟨"main.py"⟩]
    let s := e.after ops (.fresh [])
    (ends (e.seedIncludes { paths := ["first.py", "second.py"] } ⟨"/w"⟩) (.fresh [])).1.isOk = false ∧
      s.registry.roots.map ModuleRecord.name = [⟨"first"⟩, .main] ∧
      ∀ m ∈ s.registry.roots, e.MadeEntry ops (.fresh []) m ∨ e.AdmitsRoot s m :=
  ⟨by decide +kernel, by decide +kernel, (roots_admitted (fun _ _ _ h => Builder.identity_of_ofTable h) [] _).2.2.1⟩

end ImportClosure
