import ImportClosure.Proofs.Asked

/-!
# Walking again

A step that succeeded may be repeated (`Step.Repeats`): what it decided is remembered, what it got is kept, what it made
a root is one, and what a steady builder passed over it passes over again. It comes to the same value and says the same,
and changes nothing else. A walk consists of such steps, so over a steady builder walking twice is walking once
(`walk_again`). Tables are steady on all requests, and sources on those that walks make
(`Operation.isWalked_of_askedSince`).
-/

namespace ImportClosure

variable {σ : Type}

open Step Relation

/-! ## What lasts -/

namespace Session

variable {e : Engine σ} {asked : BuildRequest → Prop} {s s₁ s₂ last : Session σ}

/-- A module that is not kept, and that the builder will pass over whenever it is asked for. -/
def Refuses (e : Engine σ) (asked : BuildRequest → Prop) (s : Session σ) (i : Identity) : Prop :=
  s.cache.find? i = none ∧ ∀ r y, asked r → r.identity = i →
    ReflTransGen (e.builder.Advances asked) s.builder y → (e.builder.build r y).1.result = .ok none

/-- What is settled in a session is so in a later one: what is kept, what was decided, what is a root, and what is
refused. -/
structure Outlasts (e : Engine σ) (asked : BuildRequest → Prop) (s s' : Session σ) : Prop where
  advances : ReflTransGen (e.builder.Advances asked) s.builder s'.builder
  kept : ∀ i m, s.cache.find? i = some m → s'.cache.find? i = some m
  decided : ∀ key d, s.decisions.lookup key = some d → s'.decisions.lookup key = some d
  rooted : ∀ i, s.registry.isRoot i = true → s'.registry.isRoot i = true
  refused : ∀ i, s.Refuses e asked i → s'.Refuses e asked i

/-- What is only logged settles nothing and unsettles nothing. -/
theorem Outlasts.relog (s : Session σ) (events : List Event) (diagnostics : List Diagnostic)
    (history : List Milestone) : s.Outlasts e asked { s with events, diagnostics, history } :=
  ⟨.refl, fun _ _ h => h, fun _ _ h => h, fun _ h => h, fun _ h => h⟩

/-- Nothing is unsettled where nothing happens. -/
theorem Outlasts.refl (s : Session σ) : s.Outlasts e asked s :=
  .relog s s.events s.diagnostics s.history

/-- What outlasts two sessions one behind the other outlasts both. -/
theorem Outlasts.trans (h : s.Outlasts e asked s₁) (h' : s₁.Outlasts e asked s₂) : s.Outlasts e asked s₂ :=
  ⟨h.advances.trans h'.advances, fun i m hm => h'.kept i m (h.kept i m hm),
    fun key d hd => h'.decided key d (h.decided key d hd), fun i hi => h'.rooted i (h.rooted i hi),
    fun i hi => h'.refused i (h.refused i hi)⟩

/-- A session is left like the last one: it differs in its logs only, and in what the builder remembers of modules that
it passed over. -/
structure IsLike (e : Engine σ) (asked : BuildRequest → Prop) (s last : Session σ) : Prop where
  advances : ReflTransGen (e.builder.Advances asked) last.builder s.builder
  cache : s.cache = last.cache
  decisions : s.decisions = last.decisions
  registry : s.registry = last.registry
  pending : s.pending = last.pending
  changes : s.changes = last.changes
  warned : s.warned = last.warned

theorem IsLike.refl (s : Session σ) : s.IsLike e asked s :=
  ⟨.refl, rfl, rfl, rfl, rfl, rfl, rfl⟩

/-- What is only logged leaves a session like it was. -/
theorem IsLike.relog (h : s.IsLike e asked last) (events : List Event) (diagnostics : List Diagnostic)
    (history : List Milestone) : Session.IsLike e asked { s with events, diagnostics, history } last :=
  ⟨h.advances, h.cache, h.decisions, h.registry, h.pending, h.changes, h.warned⟩

end Session

/-! ## Steps that may be repeated -/

/-- From sessions that are left like the last one, a step comes to a value, says something, and leaves the session so.
The history tells of modules that were obtained, and of nothing else. -/
def Step.ComesAgain {α : Type} (e : Engine σ) (asked : BuildRequest → Prop) (x : Step σ α) (a : α)
    (said : List Diagnostic) (last : Session σ) : Prop :=
  ∀ s, s.IsLike e asked last → ∃ s' : Session σ, ∃ found : List ModuleRecord,
    ends x s = (.ok a, s') ∧ s'.IsLike e asked last ∧ s'.diagnostics = s.diagnostics ++ said ∧
      s'.history = found.map Milestone.obtained ++ s.history

/-- If a step succeeds, and all that it asks the builder for is asked, then it may be repeated in every session that
outlasts the one that it leaves. -/
def Step.Repeats {α : Type} (e : Engine σ) (asked : BuildRequest → Prop) (x : Step σ α) (s : Session σ) : Prop :=
  ∀ a s', ends x s = (.ok a, s') → s.events <:+ s'.events ∧
    ((∀ r, s.AskedSince s' r → asked r) → s.Outlasts e asked s' ∧ ∃ said, s'.diagnostics = s.diagnostics ++ said ∧
      ∀ last, s'.Outlasts e asked last → ComesAgain e asked x a said last)

namespace Step.Repeats

variable {α β : Type} {e : Engine σ} {asked : BuildRequest → Prop} {s : Session σ}

/-- A step that only notes something, and the same in every session, may be repeated. -/
theorem of_notes {x : Step σ α} {a : α} (said : List Diagnostic) (h : ∀ s, ∃ new, ends x s =
    (.ok a, { s with events := new ++ s.events, diagnostics := s.diagnostics ++ said })) : Repeats e asked x s := by
  intro b s' hb
  obtain ⟨new, hx⟩ := h s
  obtain ⟨hab, rfl⟩ := Prod.mk.inj (hx.symm.trans hb)
  cases hab
  refine ⟨List.suffix_append _ _, fun _ => ⟨.relog s _ _ _, said, rfl, fun last _ u hu => ?_⟩⟩
  obtain ⟨new', hu'⟩ := h u
  exact ⟨_, [], hu', hu.relog _ _ _, rfl, rfl⟩

theorem pure (a : α) : Repeats e asked (Pure.pure a) s :=
  of_notes (a := a) [] fun s => ⟨[], by simp⟩

/-- An error is no value. -/
theorem throw (err : Error) : Repeats e asked (MonadExcept.throw err : Step σ α) s := by
  intro a s' h
  cases h

/-- What comes behind an error is never reached. -/
theorem throw_bind (err : Error) (f : α → Step σ β) : Repeats e asked (MonadExcept.throw err >>= f) s := by
  intro a s' h
  rw [ends_bind_error (ends_throw err s)] at h
  cases h

/-- Steps one behind the other may be repeated, as the first is in sessions that outlast what the second leaves. -/
theorem bind {x : Step σ α} {f : α → Step σ β} (hx : Repeats e asked x s)
    (hf : ∀ a s₁, ends x s = (.ok a, s₁) → Repeats e asked (f a) s₁) : Repeats e asked (x >>= f) s := by
  intro b s' h
  obtain ⟨a, s₁, ha, hb⟩ := exists_of_ends_bind h
  obtain ⟨hfirst, hx⟩ := hx a s₁ ha
  obtain ⟨hsecond, hf⟩ := hf a s₁ ha b s' hb
  refine ⟨hfirst.trans hsecond, fun hasked => ?_⟩
  obtain ⟨hout, said, hsaid, hagain⟩ := hx fun r hr => hasked r (hr.of_suffix_right hsecond)
  obtain ⟨hout', said', hsaid', hagain'⟩ := hf fun r hr => hasked r (hr.of_suffix_left hfirst)
  refine ⟨hout.trans hout', said ++ said', by rw [hsaid', hsaid, List.append_assoc], fun last hlast u hu => ?_⟩
  obtain ⟨u₁, found, hu₁, hlike, hd, hh⟩ := hagain last (hout'.trans hlast) u hu
  obtain ⟨u', found', hu', hlike', hd', hh'⟩ := hagain' last hlast u₁ hlike
  refine ⟨u', found' ++ found, by rw [ends_bind_ok hu₁, hu'], hlike', ?_, ?_⟩
  · rw [hd', hd, List.append_assoc]
  · rw [hh', hh, List.map_append, List.append_assoc]

/-- Steps for all members of a list may be repeated if each of them may be, from wherever the others have led. -/
theorem forM {xs : List α} {f : α → Step σ PUnit} (h : ∀ x ∈ xs, ∀ s, Repeats e asked (f x) s) :
    Repeats e asked (xs.forM f) s := by
  induction xs generalizing s with
  | nil => exact .pure _
  | cons x xs ih =>
    exact .bind (h x List.mem_cons_self s) fun _ _ _ => ih fun y hy => h y (List.mem_cons_of_mem x hy)

end Step.Repeats

namespace Engine

variable {e : Engine σ} {asked : BuildRequest → Prop} {s : Session σ}

/-! ## Notes -/

theorem trace_repeats (event : Event) : Repeats e asked (e.trace event) s := by
  refine .of_notes (a := ()) [] fun s => ?_
  unfold trace
  split
  · exact ⟨[event], by simp [Session.note]⟩
  · exact ⟨[], by simp⟩

theorem diagnose_repeats (d : Diagnostic) : Repeats e asked (update fun s => s.diagnose d) s :=
  .of_notes [d] fun _ => ⟨[.diagnosed d], rfl⟩

theorem reportExtension_repeats (name : ModuleName) (kind : ModuleKind) :
    Repeats e asked (e.reportExtension name kind) s := by
  unfold reportExtension
  split
  · exact diagnose_repeats _
  · exact .pure _

theorem includeFailed_repeats (path : Path) : Repeats e asked (includeFailed path) s :=
  .bind (diagnose_repeats _) fun _ _ _ => .pure _

/-! ## Decisions -/

/-- What was decided is remembered. -/
theorem decide_repeats (q : Query) : Repeats e asked (e.decide q) s := by
  intro d s' h
  have hnotes := e.notes_decide q s
  rw [h] at hnotes
  have hlookup := lookup_of_decide h
  refine ⟨hnotes.suffix, fun _ => ⟨?_, [], ?_, fun last hlast u hu => ?_⟩⟩
  · rcases e.ends_decide q s with ⟨_, _, hq⟩ | ⟨hnone, events, hq⟩
    · obtain ⟨_, rfl⟩ := Prod.mk.inj (hq.symm.trans h)
      exact .refl s
    · obtain ⟨_, rfl⟩ := Prod.mk.inj (hq.symm.trans h)
      refine ⟨.refl, fun _ _ h => h, fun key d' hd => ?_, fun _ h => h, fun _ h => h⟩
      have hne : (key == q.key) = false := by
        rw [← Bool.not_eq_true, beq_iff_eq]
        rintro rfl
        cases hnone.symm.trans hd
      rw [List.lookup_cons, hne]
      exact hd
  · rcases e.ends_decide q s with ⟨_, _, hq⟩ | ⟨_, _, hq⟩ <;>
      obtain ⟨_, rfl⟩ := Prod.mk.inj (hq.symm.trans h) <;> simp
  · rcases e.ends_decide q u with ⟨d', hd', hq⟩ | ⟨hnone, _⟩
    · rw [hu.decisions, hlast.decided _ _ hlookup] at hd'
      cases hd'
      exact ⟨u, [], hq, hu, by simp, rfl⟩
    · rw [hu.decisions, hlast.decided _ _ hlookup] at hnone
      cases hnone

/-! ## Modules that are got -/

/-- A module that is kept is got again. -/
theorem comesAgain_of_find? {r : RecursionRequest} {m : ModuleRecord} {last : Session σ}
    (hk : last.cache.find? r.identity = some m) : ComesAgain e asked (e.recurse r false) (some m) [] last := by
  intro u hu
  refine ⟨u, [], ends_recurse_of_find? ?_, hu, by simp, rfl⟩
  rw [hu.cache]
  exact hk

/-- A module that the builder passes over whenever it is asked for is passed over again. -/
theorem comesAgain_of_refuses {r : RecursionRequest} {last : Session σ} (hasked : asked r.toBuild)
    (hallowed : e.policy.plugins.recursion r = .ok ()) (h : last.Refuses e asked r.identity) :
    ComesAgain e asked (e.recurse r false) none [] last := by
  intro u hu
  obtain ⟨hmissing, hpassed⟩ := h
  have hagain := hpassed r.toBuild u.builder hasked rfl hu.advances
  have hnot : u.cache.find? r.identity = none := hu.cache ▸ hmissing
  obtain ⟨result, u₁, hr, hc⟩ := e.recursed r false u
  cases hc with
  | known hk => cases hnot.symm.trans hk
  | refused _ hp => cases hallowed.symm.trans hp
  | failed _ _ hres => cases hagain.symm.trans hres
  | built _ _ hres => cases hagain.symm.trans hres
  | passedOver events _ _ =>
    have hadvances := hu.advances.tail ⟨r.toBuild, hasked, rfl⟩
    exact ⟨_, [], hr, ⟨hadvances, hu.cache, hu.decisions, hu.registry, hu.pending, hu.changes, hu.warned⟩, by simp, rfl⟩

/-- What was settled stays so when a module is passed over, and the module is refused. -/
theorem outlasts_of_passedOver (hb : e.builder.IsSteadyOn asked) {r : BuildRequest} (hasked : asked r)
    (hnone : s.cache.find? r.identity = none) (hres : (e.builder.build r s.builder).1.result = .ok none)
    (events : List Event) :
    s.Outlasts e asked { s with builder := (e.builder.build r s.builder).2, events } ∧
      Session.Refuses e asked { s with builder := (e.builder.build r s.builder).2, events } r.identity := by
  have hadvance : e.builder.Advances asked s.builder (e.builder.build r s.builder).2 := ⟨_, hasked, rfl⟩
  refine ⟨⟨.single hadvance, fun _ _ h => h, fun _ _ h => h, fun _ h => h, fun i hi => ?_⟩, hnone, ?_⟩
  · exact ⟨hi.1, fun r' y hr' hid hy => hi.2 r' y hr' hid (.head hadvance hy)⟩
  · exact fun r' y hr' hid hy => hb.passes_over r r' s.builder y hasked hr' hid hres hy

/-- What was settled stays so when a module is built: the builder gave it, so it is none that is refused. -/
theorem outlasts_of_built {r : BuildRequest} {o : BuildOutcome} (hasked : asked r)
    (hres : (e.builder.build r s.builder).1.result = .ok (some o)) (hid : o.record.identity = r.identity)
    (events : List Event) (reason : String) (signalled : Bool) :
    s.Outlasts e asked
      ((s.built (e.builder.build r s.builder).2 events o).accepted o reason signalled) := by
  have hadvance : e.builder.Advances asked s.builder (e.builder.build r s.builder).2 := ⟨_, hasked, rfl⟩
  refine ⟨.single hadvance, fun _ _ h => Cache.find?_add_of_some h, fun _ _ h => h, fun _ h => h, fun i hi => ?_⟩
  refine ⟨(Cache.find?_add_of_ne fun heq => ?_).trans hi.1, fun r' y hr' hid hy => hi.2 r' y hr' hid (.head hadvance hy)⟩
  cases hres.symm.trans (hi.2 r s.builder hasked (hid.symm.trans heq) .refl)

/-- A module that was got is kept, and one that the builder passed over it passes over again. -/
theorem recurse_repeats (hb : e.builder.IsSteadyOn asked) (r : RecursionRequest) :
    Repeats e asked (e.recurse r false) s := by
  intro found s' h
  have hnotes := e.notes_recurse r false s
  rw [h] at hnotes
  refine ⟨hnotes.suffix, fun hasked => ?_⟩
  have hallowed : s.cache.find? r.identity = none → e.policy.plugins.recursion r = .ok () := by
    intro hnone
    cases hp : e.policy.plugins.recursion r with
    | ok _ => rfl
    | error what => cases (ends_recurse_of_refused hnone hp).symm.trans h
  have hask : s.cache.find? r.identity = none → asked r.toBuild := by
    intro hnone
    rw [if_pos ⟨hnone, hallowed hnone⟩] at hnotes
    exact hasked _ (hnotes.askedSince_iff.2 (List.mem_singleton.2 rfl))
  obtain ⟨result, s₁, hr, hc⟩ := e.recursed r false s
  obtain ⟨rfl, rfl⟩ := Prod.mk.inj (hr.symm.trans h)
  cases hc with
  | known hk => exact ⟨.refl s, [], by simp, fun last hlast => comesAgain_of_find? (hlast.kept _ _ hk)⟩
  | passedOver events hnone hres =>
    obtain ⟨hout, hrefuses⟩ := outlasts_of_passedOver hb (hask hnone) hnone hres events
    exact ⟨hout, [], by simp, fun last hlast =>
      comesAgain_of_refuses (hask hnone) (hallowed hnone) (hlast.refused _ hrefuses)⟩
  | @built o events hnone hres =>
    have hid : o.record.identity = r.identity := hb.identifies r.toBuild s.builder o (hask hnone) hres
    refine ⟨outlasts_of_built (hask hnone) hres hid events r.reason false, [],
      by simp [Session.accepted, Session.built], fun last hlast => comesAgain_of_find? (hlast.kept _ _ ?_)⟩
    rw [← hid]
    exact Cache.find?_add_self

/-- That a module was obtained is told again. -/
theorem obtain_repeats (m : ModuleRecord) : Repeats e asked (update fun s => s.reach (.obtained m)) s := by
  intro _ s' h
  cases h
  refine ⟨List.suffix_refl _, fun _ => ⟨.relog s _ _ _, [], by simp [Session.reach], fun last _ u hu => ?_⟩⟩
  exact ⟨_, [m], rfl, hu.relog _ _ _, by simp [Session.reach], rfl⟩

/-- A module that is fetched may be fetched again: it is kept, or passed over again. -/
theorem fetch_repeats (hb : e.builder.IsSteadyOn asked) (r : RecursionRequest) : Repeats e asked (e.fetch r) s := by
  refine .bind (recurse_repeats hb r) fun found _ _ => ?_
  cases found with
  | none => exact .pure _
  | some m => exact .bind (obtain_repeats m) fun _ _ _ => .pure _

/-! ## Walks -/

/-- A root is not made a root again. -/
theorem addRoot_repeats (m : ModuleRecord) : Repeats e asked (update fun s => s.addRoot m) s := by
  have hroot : (s.addRoot m).registry.isRoot m.identity = true := by
    rw [Registry.isRoot_iff, Session.addRoot, Registry.roots_addRoot]
    split
    next h => exact Registry.isRoot_iff.1 h
    · exact ⟨m, List.mem_concat_self, rfl⟩
  intro _ s' h
  cases h
  refine ⟨List.suffix_refl _, fun _ => ⟨⟨.refl, fun _ _ h => h, fun _ _ h => h, fun i hi => ?_, fun _ h => h⟩, [], by
    simp [Session.addRoot], fun last hlast u hu => ⟨u, [], ?_, hu, by simp, rfl⟩⟩⟩
  · rw [Registry.isRoot_iff] at hi ⊢
    obtain ⟨root, hmem, hid⟩ := hi
    have hroots : root ∈ (s.registry.addRoot m).roots := by
      rw [Registry.roots_addRoot]
      split
      · exact hmem
      · exact List.mem_append_left _ hmem
    exact ⟨root, hroots, hid⟩
  · have hagain : u.addRoot m = u := by
      have hu' : u.registry.isRoot m.identity = true := hu.registry ▸ hlast.rooted _ hroot
      have hsame : u.registry.addRoot m = u.registry := if_pos hu'
      rw [Session.addRoot, hsame]
    rw [ends_update, hagain]

/-- A module that is kept is not kept again. -/
theorem keep_repeats {m : ModuleRecord} (hk : s.cache.find? m.identity = some m) :
    Repeats e asked (update fun s => (s.keep m).2) s := by
  intro _ s' h
  rw [ends_update, keep_eq hk] at h
  cases h
  refine ⟨List.suffix_refl _, fun _ => ⟨.refl s, [], by simp, fun last hlast u hu => ⟨u, [], ?_, hu, by simp, rfl⟩⟩⟩
  rw [ends_update, keep_eq]
  rw [hu.cache]
  exact hlast.kept _ _ hk

theorem openPackage_repeats (m : ModuleRecord) : Repeats e asked (openPackage m) s := by
  unfold openPackage
  split
  · exact .pure _
  · refine .bind (addRoot_repeats m) fun _ _ _ => ?_
    split
    · exact .pure _
    · exact .throw _

theorem namesIn_repeats (dir : Path) : Repeats e asked (e.namesIn dir) s := by
  unfold namesIn
  split
  · exact .pure _
  · exact .throw _

/-- A module that is kept may be registered again: it is a root already. -/
theorem registerIncluded_repeats {m : ModuleRecord} (hk : s.cache.find? m.identity = some m) :
    Repeats e asked (e.registerIncluded m) s := by
  unfold registerIncluded
  refine .bind (trace_repeats _) fun _ s₁ h₁ => ?_
  have hk₁ : s₁.cache.find? m.identity = some m := by
    have hleads : Leads e (fun _ => True) (e.trace (.moduleIncluded m)) s _ := trace_leads _ trivial
    rw [hleads.2 _ _ h₁]
    exact hk
  refine .bind (keep_repeats hk₁) fun _ _ _ => ?_
  dsimp only
  split
  · split
    · exact .throw_bind _ _
    · exact .bind (openPackage_repeats m) fun _ _ _ => .bind (trace_repeats _) fun _ _ _ =>
        .bind (namesIn_repeats _) fun _ _ _ => .pure _
  · split
    · exact .bind (addRoot_repeats m) fun _ _ _ => .pure _
    · exact .pure _

/-- One path may be walked again. -/
theorem walkSingle_repeats (hb : e.builder.IsSteadyOn asked) (path : Path) (package : Option ModuleName) :
    Repeats e asked (e.walkSingle path package) s := by
  unfold walkSingle
  refine .bind (trace_repeats _) fun _ _ _ => ?_
  split
  · exact .pure _
  · refine .bind (reportExtension_repeats _ _) fun _ _ _ => .bind (decide_repeats _) fun d s₃ _ => ?_
    cases d with
    | included reason =>
      refine .bind (fetch_repeats hb _) fun found s₄ h => ?_
      cases found with
      | none => exact includeFailed_repeats _
      | some m =>
        exact registerIncluded_repeats (find?_of_fetch h)
    | excluded | undecided => exact .bind (diagnose_repeats _) fun _ _ _ => .pure _

theorem walkPath_repeats (path : Path) (package : Option ModuleName) :
    Repeats e asked (e.walkPath path package) s := by
  unfold walkPath
  refine .bind (trace_repeats _) fun _ _ _ => ?_
  split
  · exact .pure _
  · split
    · exact includeFailed_repeats _
    · exact .bind (namesIn_repeats _) fun _ _ _ => .pure _

theorem walkPattern_repeats (text : String) : Repeats e asked (e.walkPattern text) s := by
  unfold walkPattern
  refine .bind (trace_repeats _) fun _ _ _ => ?_
  dsimp only
  split
  · exact .throw_bind _ _
  cases FilePattern.read text with
  | error fault => exact .throw _
  | ok pattern =>
    dsimp only
    split
    · exact .bind (diagnose_repeats _) fun _ _ _ => .pure _
    · exact .pure _

/-- One item may be walked again. -/
theorem expand_repeats (hb : e.builder.IsSteadyOn asked) (item : WalkItem) : Repeats e asked (e.expand item) s := by
  cases item with
  | single path package => exact walkSingle_repeats hb path package
  | path path package => exact walkPath_repeats path package
  | pattern text => exact walkPattern_repeats text

/-- What is on a stack may be walked again. -/
theorem walkStack_repeats (hb : e.builder.IsSteadyOn asked) (bound : Nat) (items : List WalkItem) :
    Repeats e asked (e.walkStack bound items) s := by
  induction bound generalizing items s with
  | zero =>
    cases items with
    | nil => exact .pure _
    | cons item rest => exact .throw _
  | succ bound ih =>
    cases items with
    | nil => exact .pure _
    | cons item rest => exact .bind (expand_repeats hb item) fun children _ _ => ih (children ++ rest)

theorem walk_repeats (hb : e.builder.IsSteadyOn asked) (item : WalkItem) : Repeats e asked (e.walk item) s :=
  .bind (expand_repeats hb item) fun items _ _ => walkStack_repeats hb _ items

/-- What a configuration includes may be walked again. -/
theorem seedIncludes_repeats (hb : e.builder.IsSteadyOn asked) (i : ImportClosure.Includes)
    (base : Path) : Repeats e asked (e.seedIncludes i base) s :=
  .bind (.forM fun _ _ _ => walk_repeats hb _) fun _ _ _ => .forM fun _ _ _ => walk_repeats hb _

end Engine

/-- A call of the walker may be repeated. -/
theorem Operation.perform_repeats {e : Engine σ} {asked : BuildRequest → Prop} {s : Session σ}
    (hb : e.builder.IsSteadyOn asked) {op : Operation} (hop : op.isWalk = true) : Repeats e asked (op.perform e) s := by
  cases op with
  | walk item => exact Engine.walk_repeats hb item
  | seed includes base => exact Engine.seedIncludes_repeats hb includes base
  | _ => cases hop

/-- Under any policy and plugins, from any session, over a builder that is steady on some class of requests, in which all
are that the call makes: a call of the walker that succeeds may be repeated at once. It succeeds again, says the same, and
leaves the modules that are kept, the roots, the uses, the queue and the signals as they are; of what became of modules the
history tells nothing but that they were obtained. -/
theorem walk_again {e : Engine σ} {asked : BuildRequest → Prop} (hb : e.builder.IsSteadyOn asked) {op : Operation}
    (hop : op.isWalk = true) {s s₁ : Session σ} (h : ends (op.perform e) s = (.ok (), s₁))
    (hasked : ∀ r, s.AskedSince s₁ r → asked r) :
    ∃ said : List Diagnostic, ∃ found : List ModuleRecord, ∃ s₂ : Session σ, ends (op.perform e) s₁ = (.ok (), s₂) ∧
      s₁.diagnostics = s.diagnostics ++ said ∧ s₂.diagnostics = s₁.diagnostics ++ said ∧
      s₂.history = found.map Milestone.obtained ++ s₁.history ∧ s₂.cache = s₁.cache ∧ s₂.registry = s₁.registry ∧
      s₂.pending = s₁.pending ∧ s₂.changes = s₁.changes ∧ s₂.decisions = s₁.decisions ∧ s₂.warned = s₁.warned := by
  obtain ⟨_, hrepeats⟩ := Operation.perform_repeats hb hop () s₁ h
  obtain ⟨_, said, hsaid, hagain⟩ := hrepeats hasked
  obtain ⟨s₂, found, hends, hlike, hd, hh⟩ := hagain s₁ (.refl s₁) s₁ (.refl s₁)
  exact ⟨said, found, s₂, hends, hsaid, hd, hh, hlike.cache, hlike.registry, hlike.pending, hlike.changes,
    hlike.decisions, hlike.warned⟩

/-- A namespace package with a module that cannot be read. -/
def Engine.withBlob : Engine (List Identity) :=
  overSources ((FileTree.empty ⟨"/w"⟩).add ["w", "pkg", "blob.py"] (.unreadable .notText))

/-- The package is walked twice: the module that cannot be read is reported both times. -/
theorem walk_again_withBlob :
    let e := Engine.withBlob
    let op : Operation := .walk (.single ⟨"/w/pkg"⟩ none)
    ∃ s₁ s₂, ends (op.perform e) (.fresh []) = (.ok (), s₁) ∧ ends (op.perform e) s₁ = (.ok (), s₂) ∧
      s₂.cache = s₁.cache ∧ s₁.cache.size = 1 ∧
        s₁.diagnostics.map Diagnostic.message = ["Failed to include module from '/w/pkg/blob.py'."] ∧
          s₂.diagnostics = s₁.diagnostics ++ s₁.diagnostics := by
  intro e op
  have hok : (ends (op.perform e) (.fresh [])).1.isOk = true := by decide +kernel
  have hsize : (ends (op.perform e) (.fresh [])).2.cache.size = 1 := by decide +kernel
  have hsaid : (ends (op.perform e) (.fresh [])).2.diagnostics.map Diagnostic.message =
    ["Failed to include module from '/w/pkg/blob.py'."] := by decide +kernel
  obtain ⟨_, s₁, h⟩ := exists_of_isOk hok
  rw [h] at hsize hsaid
  have hempty : (FileTree.empty ⟨"/w"⟩).IsWellFormed := FileTree.isWellFormed_empty (by decide) (by decide)
  have hnames : ∀ name ∈ ["w", "pkg", "blob.py"], Path.IsStep name ∧ name ≠ ".." := by decide
  have ht : e.tree.IsWellFormed := hempty.add _ hnames
  have hitem : e.tree.Walkable ⟨"/w/pkg"⟩ := ⟨by decide, by decide +kernel, by decide +kernel⟩
  have hitems : ∀ item ∈ op.items, item.Walkable e.tree := by
    intro item hmem
    obtain rfl : item = .single ⟨"/w/pkg"⟩ none := List.mem_singleton.1 hmem
    exact hitem
  have hasked : ∀ r, Session.AskedSince (.fresh []) s₁ r → r.IsWalked e.tree :=
    fun r hr => Operation.isWalked_of_askedSince rfl ht rfl hitems (List.forall_mem_nil _) h hr
  obtain ⟨said, _, s₂, hagain, hfirst, hsecond, _, hcache, _⟩ :=
    walk_again (Builder.isSteadyOn_ofSources (by decide)) rfl h hasked
  obtain rfl : s₁.diagnostics = said := hfirst
  exact ⟨s₁, s₂, h, hagain, hcache, hsize, hsaid, hsecond⟩

/-- A builder that builds a file under one spelling of its path, and passes it over under the other. -/
def Builder.bySpelling : Builder Unit where
  build r _ :=
    let record : ModuleRecord := { name := r.name, file := r.file, kind := r.kind }
    ({ result := .ok (if Text.endsWith r.file.path.text "/" then none else some ⟨record, [], true⟩) }, ())

/-- An engine with this builder, over a tree with a package. -/
def Engine.spelling : Engine Unit where
  policy := { options := {}, followTo := [], nofollowTo := [], bytecodeModules := [] }
  tree := (FileTree.empty ⟨"/w"⟩).add ["w", "pkg", initEntry] (.text "")
  builder := .bySpelling

/-- An engine over a module that cannot be built. -/
def Engine.withBroken : Engine (List BuildRequest) where
  policy := { options := {}, followTo := [], nofollowTo := [], bytecodeModules := [] }
  tree := (FileTree.empty ⟨"/w"⟩).add ["w", "a.py"] (.text "")
  builder := .ofTable [(⟨"a"⟩, { broken := true })]

/-- To give records under the identity that is requested, and to answer a request always alike, is not enough. A package
that is asked for under two spellings may be passed over under the first and built under the second: the call that is
repeated finds it kept under both, and reports nothing. And a module that is passed over is asked for again. -/
theorem walk_not_again :
    (let e := Engine.spelling
      let op : Operation := .seed { paths := ["pkg/", "pkg"] } ⟨"/w"⟩
      let first := ends (op.perform e) (.fresh ())
      let second := ends (op.perform e) first.2
      (∀ r x o, (e.builder.build r x).1.result = .ok (some o) → o.record.identity = r.identity) ∧
        first.1.isOk = true ∧ second.1.isOk = true ∧
        first.2.diagnostics.map Diagnostic.message = ["Failed to include module from '/w/pkg/'."] ∧
        second.2.diagnostics.map Diagnostic.message = ["Failed to include module from '/w/pkg/'."]) ∧
      let e := Engine.withBroken
      let op : Operation := .walk (.single ⟨"a.py"⟩ none)
      let first := ends (op.perform e) (.fresh [])
      let second := ends (op.perform e) first.2
      first.1.isOk = true ∧ (first.2.events.filterMap Event.build?).map BuildRequest.name = [⟨"a"⟩] ∧
        (second.2.events.filterMap Event.build?).map BuildRequest.name = [⟨"a"⟩, ⟨"a"⟩] := by
  refine ⟨⟨fun r x o h => ?_, by decide +kernel, by decide +kernel, by decide +kernel, by decide +kernel⟩,
    by decide +kernel, by decide +kernel, by decide +kernel⟩
  simp only [Engine.spelling, Builder.bySpelling, Except.ok.injEq] at h
  split at h
  · cases h
  · cases h
    rfl

end ImportClosure
