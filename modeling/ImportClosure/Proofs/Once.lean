import ImportClosure.Proofs.Builders
import ImportClosure.Proofs.Gains
import Mathlib.Data.Set.Card

/-!
# Built once

For every identity the builder gives at most one new record, at most one record is queued and at most one is signalled,
and the first record that was given is the one that is kept (`Once`). This holds along every sequence of operations in
which the entry is built at most once and nothing asks for the main module by its name, whatever errors occur on the
way. Of the builder it takes what `Builder.BuildsOnce` says, which holds of tables and of sources.
-/

namespace ImportClosure

variable {σ : Type}

open Step

/-! ## Builders -/

/-- A builder answers under the name that is requested, and never calls a module new that is kept already. `fits` says
of what it remembers that it goes with the modules that are kept. -/
structure Builder.BuildsOnce (b : Builder σ) (fits : σ → (Identity → Prop) → Prop) : Prop where
  name_eq : ∀ r x o, (b.build r x).1.result = .ok (some o) → o.record.name = r.name
  fits_build : ∀ r x kept, fits x kept → fits (b.build r x).2 kept
  fits_built : ∀ r x kept o, fits x kept → (b.build r x).1.result = .ok (some o) →
    fits (b.build r x).2 fun i => kept i ∨ i = o.record.identity
  not_kept : ∀ r x kept o, fits x kept → (b.build r x).1.result = .ok (some o) → o.newlyBuilt = true →
    ¬ kept r.identity → ¬ kept o.record.identity

namespace Builder

/-- What a table remembers does not matter. -/
theorem buildsOnce_ofTable (table : List (ModuleName × TableModule)) :
    (Builder.ofTable table).BuildsOnce fun _ _ => True where
  name_eq _ _ _ h := congrArg Identity.name (identity_of_ofTable h)
  fits_build _ _ _ _ := trivial
  fits_built _ _ _ _ _ _ := trivial
  not_kept _ _ _ _ _ h _ hk := by rwa [identity_of_ofTable h]

/-- A builder over sources remembers all modules that are kept. -/
theorem buildsOnce_ofSources (p : SearchPath) (t : FileTree) :
    (Builder.ofSources p t).BuildsOnce fun x kept => ∀ i, kept i → i ∈ x where
  name_eq r x o h := by
    obtain ⟨hrecord, _⟩ := given_of_ofSources h
    rw [hrecord]
    exact r.name_target t
  fits_build r x kept hf i hi := by
    have hb := sourceBuild p t r x
    generalize ((ofSources p t).build r x).1.result = result, ((ofSources p t).build r x).2 = x' at hb ⊢
    cases hb with
    | known | failed => exact hf i hi
    | new => exact List.mem_cons_of_mem _ (hf i hi)
  fits_built r x kept o hf h i hi := by
    obtain ⟨_, ⟨hx, _, _, hnext⟩ | ⟨_, _, _, hnext⟩⟩ := given_of_ofSources h <;> rw [hnext]
    · rcases hi with hi | rfl
      · exact hf i hi
      · exact hx
    · rcases hi with hi | rfl
      · exact List.mem_cons_of_mem _ (hf i hi)
      · exact List.mem_cons_self
  not_kept r x kept o hf h hnew _ hk := by
    obtain ⟨_, ⟨_, _, hold, _⟩ | ⟨hx, _⟩⟩ := given_of_ofSources h
    · rw [hold] at hnew
      cases hnew
    · exact hx (hf _ hk)

end Builder

/-! ## The invariant -/

namespace Session

variable {s s' : Session σ} {l : List Identity} {i : Identity}

/-- A list names modules that are kept, each of them once. -/
def Lists (s : Session σ) (l : List Identity) : Prop :=
  l.Nodup ∧ ∀ i ∈ l, s.Keeps i

/-- A list names kept modules as long as they are kept. -/
theorem Lists.mono (h : s.Lists l) (hk : ∀ i, s.Keeps i → s'.Keeps i) : s'.Lists l :=
  ⟨h.1, fun i hi => hk i (h.2 i hi)⟩

/-- A module that was not kept and is kept now may be added to a list. -/
theorem Lists.cons (h : s.Lists l) (hk : ∀ i, s.Keeps i → s'.Keeps i) (hn : ¬ s.Keeps i) (hi : s'.Keeps i) :
    s'.Lists (i :: l) := by
  refine ⟨List.nodup_cons.2 ⟨fun hmem => hn (h.2 i hmem), h.1⟩, ?_⟩
  simpa [hi] using fun j hj => hk j (h.2 j hj)

/-- A list of modules out of a finite set is not longer than the set is large. -/
theorem Lists.length_le_ncard (h : s.Lists l) {S : Set Identity} (hS : S.Finite) (hl : ∀ i ∈ l, i ∈ S) :
    l.length ≤ S.ncard := by
  rw [← List.toFinset_card_of_nodup h.1, ← Set.ncard_coe_finset]
  exact Set.ncard_le_ncard (fun i hi => hl i (by simpa using hi)) hS

/-- Read backwards, a list names the same modules. -/
theorem Lists.reverse (h : s.Lists l) : s.Lists l.reverse :=
  ⟨List.nodup_reverse.2 h.1, fun i hi => h.2 i (List.mem_reverse.1 hi)⟩

end Session

/-- The record that is kept for the first record of an identity that the builder gave: this record itself, or the entry
made of it. -/
def Engine.IsKeptFor (e : Engine σ) (raw kept : ModuleRecord) : Prop :=
  kept = raw ∨ raw.name = .main ∧ kept = e.entryRecord raw

/-- Every identity is built newly, queued and signalled at most once, and kept as it was first built. -/
structure Once (e : Engine σ) (fits : σ → (Identity → Prop) → Prop) (s : Session σ) : Prop where
  fits : fits s.builder s.Keeps
  newBuilds : s.Lists s.newBuilds
  pushes : s.Lists s.pushes
  signals : s.Lists s.signals
  first : ∀ i raw, s.firstBuild? i = some raw → ∃ kept, s.cache.find? i = some kept ∧ e.IsKeptFor raw kept
  unbuilt : ∀ i, s.firstBuild? i = none → ¬ s.Keeps i

namespace Once

variable {e : Engine σ} {fits : σ → (Identity → Prop) → Prop} {s s' : Session σ}

/-- In a session in which nothing has happened all was built once. -/
theorem fresh {x : σ} (h : fits x fun _ => False) : Once e fits (Session.fresh x) where
  fits := by
    have hk : (Session.fresh x).Keeps = fun _ => False :=
      funext fun i => eq_false (Session.not_keeps_fresh x i)
    rw [hk]
    exact h
  newBuilds := by simp [Session.Lists, Session.newBuilds, Session.fresh]
  pushes := by simp [Session.Lists, Session.pushes, Session.fresh]
  signals := by simp [Session.Lists, Session.signals, Session.fresh]
  first i raw h := by simp [Session.firstBuild?, Session.fresh] at h
  unbuilt i _ := Session.not_keeps_fresh x i

/-- The invariant depends on what is kept, built, queued and signalled only. -/
theorem of_eq (h : Once e fits s) (hb : fits s'.builder s.Keeps) (hc : s'.cache = s.cache)
    (hn : s'.newBuilds = s.newBuilds) (hp : s'.pushes = s.pushes) (hs : s'.signals = s.signals)
    (hf : ∀ i, s'.firstBuild? i = s.firstBuild? i) : Once e fits s' := by
  have hk : s'.Keeps = s.Keeps := by
    funext i
    rw [Session.Keeps, hc, Session.Keeps]
  have hmono : ∀ i, s.Keeps i → s'.Keeps i := fun i hi => by rwa [hk]
  refine ⟨by rwa [hk], ?_, ?_, ?_, ?_, ?_⟩
  · rw [hn]
    exact h.newBuilds.mono hmono
  · rw [hp]
    exact h.pushes.mono hmono
  · rw [hs]
    exact h.signals.mono hmono
  · intro i raw hi
    rw [hf] at hi
    rw [hc]
    exact h.first i raw hi
  · intro i hi
    rw [hf] at hi
    rw [hk]
    exact h.unbuilt i hi

/-- In sessions that are alike all was built once or not. -/
theorem of_alike (h : Once e fits s) (ha : s.Alike s') : Once e fits s' := by
  refine h.of_eq (by rw [ha.builder]; exact h.fits) ha.cache ?_ ?_ ?_ ?_
  · rw [Session.newBuilds, ha.history, Session.newBuilds]
  · rw [Session.pushes, ha.history, Session.pushes]
  · rw [Session.signals, ha.changes, Session.signals]
  · intro i
    rw [Session.firstBuild?, ha.history, Session.firstBuild?]

/-- A record that the builder gives is kept, by itself or as the entry. It may be called new, queued or signalled only if
no record of its identity was kept. -/
theorem taken (h : Once e fits s) {raw m kept : ModuleRecord} (newly pushed signalled : Bool)
    (hid : m.identity = raw.identity) (hm : e.IsKeptFor raw m) (hkept : kept.identity = raw.identity)
    (hc : s'.cache = (s.cache.add m).2) (hb : fits s'.builder fun i => s.Keeps i ∨ i = raw.identity)
    (hh : s'.history = (if pushed then [.queued kept] else []) ++ .built raw newly :: s.history)
    (hs : s'.signals = if signalled then s.signals ++ [raw.identity] else s.signals)
    (hnew : newly || pushed || signalled → ¬ s.Keeps raw.identity) : Once e fits s' := by
  have hk : ∀ i, s'.Keeps i ↔ s.Keeps i ∨ i = raw.identity := fun i => by rw [← hid]; exact Session.keeps_add hc
  have hmono : ∀ i, s.Keeps i → s'.Keeps i := fun i hi => (hk i).2 (Or.inl hi)
  have hraw : s'.Keeps raw.identity := (hk _).2 (Or.inr rfl)
  have hf : ∀ i, s'.firstBuild? i = (s.firstBuild? i).or (if raw.identity = i then some raw else none) := by
    intro i
    rw [Session.firstBuild?, hh]
    by_cases hi : raw.identity = i <;> cases pushed <;>
      simp [Session.firstBuild?, Milestone.buildOf?, List.findSome?_append, List.findSome?_cons, hi]
  refine ⟨?_, ?_, ?_, ?_, ?_, ?_⟩
  · rw [show s'.Keeps = _ from funext fun i => propext (hk i)]
    exact hb
  · rw [Session.newBuilds_of_history hh]
    split
    · exact h.newBuilds.cons hmono (hnew (by simp [*])) hraw
    · exact h.newBuilds.mono hmono
  · rw [Session.pushes_of_history hh, hkept]
    split
    · exact h.pushes.cons hmono (hnew (by simp [*])) hraw
    · exact h.pushes.mono hmono
  · rw [hs]
    split
    · simpa using (h.signals.reverse.cons hmono (hnew (by simp [*])) hraw).reverse
    · exact h.signals.mono hmono
  · intro i first hi
    rw [hf] at hi
    cases hold : s.firstBuild? i with
    | some old =>
      obtain rfl : old = first := by simpa [hold] using hi
      obtain ⟨kept, hkept, hfor⟩ := h.first i old hold
      exact ⟨kept, by rw [hc]; exact Cache.find?_add_of_some hkept, hfor⟩
    | none =>
      -- nothing of this identity was kept, so that the record is kept as it is
      obtain ⟨rfl, rfl⟩ : raw.identity = i ∧ raw = first := by simpa [hold] using hi
      have hnone : s.cache.find? m.identity = none := by
        rw [hid, ← Option.not_isSome_iff_eq_none]
        exact h.unbuilt _ hold
      refine ⟨m, ?_, hm⟩
      rw [hc, ← hid, Cache.find?_add_self, Cache.add_of_none hnone]
  · intro i hi
    rw [hf, Option.or_eq_none_iff] at hi
    rw [hk]
    rintro (hold | rfl)
    · exact h.unbuilt i hi.1 hold
    · simp at hi

end Once

/-! ## What keeps the invariant -/

/-- No module that is kept runs under the name of the entry. -/
def Session.NoMain (s : Session σ) : Prop :=
  ∀ i, s.Keeps i → i.name ≠ .main

/-- A session in which nothing has happened has no main module. -/
theorem Session.noMain_fresh (x : σ) : (Session.fresh x).NoMain := by
  intro i hi
  exact absurd hi (Session.not_keeps_fresh x i)

section Steps

variable {e : Engine σ} {fits : σ → (Identity → Prop) → Prop} {s s' : Session σ}

/-- Asking for an included module keeps the invariant. -/
theorem Once.recursed (hb : e.builder.BuildsOnce fits) (h : Once e fits s) {r : RecursionRequest} {signalled : Bool}
    {result : Except Error (Option ModuleRecord)} (hr : Recursed e r signalled s result s') : Once e fits s' := by
  cases hr with
  | known | refused => exact h
  | failed | passedOver =>
    exact h.of_eq (hb.fits_build _ _ _ h.fits) rfl rfl rfl rfl fun _ => rfl
  | @built o events hnone hres =>
    have hkept : (s.cache.add o.record).1.identity = o.record.identity := Cache.identity_add
    refine h.taken o.newlyBuilt o.newlyBuilt (o.newlyBuilt && signalled) (rfl : o.record.identity = _) (Or.inl rfl)
      hkept rfl (hb.fits_built _ _ _ _ h.fits hres) ?_ ?_ ?_
    · cases hn : o.newlyBuilt <;> simp [Session.accepted, Session.built, hn]
    · have hsig : (⟨(s.cache.add o.record).1.name, (s.cache.add o.record).1.sourceRef, r.reason⟩ : NewCode).identity =
          o.record.identity := hkept
      cases hn : o.newlyBuilt && signalled <;> simp [Session.signals, Session.accepted, Session.built, hn, hsig]
    · intro hn
      refine hb.not_kept _ _ _ _ h.fits hres (by cases hn' : o.newlyBuilt <;> simp [hn'] at hn ⊢) ?_
      rw [Session.Keeps, Option.not_isSome_iff_eq_none]
      exact hnone

/-- Building the entry keeps the invariant, if no module runs under its name yet. -/
theorem Once.entered (hb : e.builder.BuildsOnce fits) (h : Once e fits s) (hmain : s.NoMain) {path : Path}
    {result : Except Error ModuleRecord} (hr : Entered e path s result s') : Once e fits s' := by
  cases hr with
  | failed => exact h.of_eq (hb.fits_build _ _ _ h.fits) rfl rfl rfl rfl fun _ => rfl
  | @built o events hres =>
    have hname : o.record.name = .main := hb.name_eq _ _ _ hres
    have hid : (e.entryRecord o.record).identity = o.record.identity := rfl
    refine h.taken o.newlyBuilt true false hid (Or.inr ⟨hname, rfl⟩) (Cache.identity_add.trans hid) rfl
      (hb.fits_built _ _ _ _ h.fits hres) rfl rfl fun _ hk => ?_
    exact hmain _ hk hname

/-- Every action but building the entry keeps the invariant. -/
theorem Once.move (hb : e.builder.BuildsOnce fits) (h : Once e fits s) {a : Action} (ha : ∀ path, a ≠ .entered path)
    (hm : Move e a s s') : Once e fits s' := by
  cases a with
  | recursed r signalled =>
    obtain ⟨_, hc⟩ := hm.recursed
    exact h.recursed hb hc
  | fetched r =>
    obtain ⟨_, s₁, hc, ⟨_, rfl⟩ | ⟨m, _, rfl⟩⟩ := hm.fetched
    · exact h.recursed hb hc
    · have h₁ := h.recursed hb hc
      refine h₁.of_eq h₁.fits rfl rfl rfl rfl fun i => ?_
      simp [Session.firstBuild?, Session.reach, Milestone.buildOf?, List.findSome?_append]
  | entered path => exact absurd rfl (ha path)
  | drained =>
    cases hm
    exact h.of_eq h.fits rfl rfl rfl rfl fun _ => rfl
  | _ => exact h.of_alike (hm.alike rfl)

/-- A module that is asked for is kept under the name that was asked for, and nothing else comes in. -/
theorem Recursed.keeps (hb : e.builder.BuildsOnce fits) {r : RecursionRequest} {signalled : Bool}
    {result : Except Error (Option ModuleRecord)} (hr : Recursed e r signalled s result s') {i : Identity}
    (hi : s'.Keeps i) : s.Keeps i ∨ i.name = r.name := by
  cases hr with
  | built events hnone hres =>
    rcases (Session.keeps_add rfl).1 hi with hi | rfl
    · exact Or.inl hi
    · exact Or.inr (hb.name_eq _ _ _ hres)
  | _ => exact Or.inl hi

/-- Sparing the main module keeps its name unused. -/
theorem Session.NoMain.move (hb : e.builder.BuildsOnce fits) (h : s.NoMain) {a : Action} (ha : a.SparesMain)
    (hm : Move e a s s') : s'.NoMain := by
  have hrec : ∀ {r : RecursionRequest} {signalled : Bool} {result : Except Error (Option ModuleRecord)}
      {s₁ : Session σ}, r.name ≠ .main → Recursed e r signalled s result s₁ → s₁.NoMain := by
    intro r signalled result s₁ hr hc i hi
    rcases hc.keeps hb hi with hi | hi
    · exact h i hi
    · rwa [hi]
  cases a with
  | recursed r signalled =>
    obtain ⟨_, hc⟩ := hm.recursed
    exact hrec ha hc
  | fetched r =>
    obtain ⟨_, s₁, hc, hs₁⟩ := hm.fetched
    have h₁ : s₁.NoMain := hrec ha hc
    rcases hs₁ with ⟨_, rfl⟩ | ⟨_, _, rfl⟩ <;> exact h₁
  | entered => exact ha.elim
  | drained =>
    cases hm
    exact h
  | _ =>
    intro i hi
    rw [Session.Keeps, (hm.alike rfl).cache] at hi
    exact h i hi

end Steps

/-! ## Sequences of operations -/

section Operations

variable {e : Engine σ} {fits : σ → (Identity → Prop) → Prop}

/-- The name of the entry stays unused until the entry is built. -/
theorem Session.NoMain.next (hb : e.builder.BuildsOnce fits) {s : Session σ} (hs : e.Remembers s) (h : s.NoMain)
    {op : Operation} (hop : op.asksForMain = false) (hentry : op.isEntry = false) : (e.next s op).NoMain := by
  refine (e.moves_next hs op).keeps (fun a s s' ha hm h => h.move hb ?_ hm) h
  cases op with
  | addEntry path => cases hentry
  | recurse r signalled =>
    cases ha
    simpa [Action.SparesMain, Operation.asksForMain, ModuleName.isMain] using hop
  | _ => exact ha

/-- An operation keeps the invariant; the entry may be built as long as no module runs under its name. -/
theorem Once.next (hb : e.builder.BuildsOnce fits) {s : Session σ} (hs : e.Remembers s) (h : Once e fits s)
    {op : Operation} (hentry : op.isEntry → s.NoMain) : Once e fits (e.next s op) := by
  cases op with
  | addEntry path =>
    obtain ⟨result, s₁, hr, hc⟩ := e.entered path s
    rw [e.next_addEntry, hr]
    exact h.entered hb (hentry rfl) hc
  | _ =>
    refine (e.moves_next hs _).keeps (fun a s s' ha hm h => h.move hb (fun path hp => ?_) hm) h
    subst hp
    cases ha

/-- Whatever is done to a session, with the entry built at most once and the main module not asked for by its name,
keeps the invariant. -/
theorem Once.after (hb : e.builder.BuildsOnce fits) {s : Session σ} (hs : e.Remembers s) (h : Once e fits s)
    {ops : List Operation} (hops : ∀ op ∈ ops, op.asksForMain = false)
    (hentry : ops.countP Operation.isEntry = 0 ∨ ops.countP Operation.isEntry ≤ 1 ∧ s.NoMain) :
    Once e fits (e.after ops s) := by
  induction ops generalizing s with
  | nil => exact h
  | cons op ops ih =>
    have hs' : e.Remembers (e.next s op) := hs.moves (e.moves_next hs op)
    have hop := hops op (by simp)
    rw [List.countP_cons] at hentry
    refine ih hs' (h.next hb hs fun hop => ?_) (fun op hmem => hops op (by simp [hmem])) ?_
    · simp only [hop, if_true] at hentry
      exact (hentry.resolve_left (by omega)).2
    · cases hop' : op.isEntry with
      | true =>
        simp only [hop', if_true] at hentry
        exact Or.inl (by omega)
      | false =>
        simp only [hop', Bool.false_eq_true, if_false, Nat.add_zero] at hentry
        exact hentry.imp id fun h => ⟨h.1, h.2.next hb hs hop hop'⟩

/-- Every identity was built newly, queued and signalled at most once so far. From its first build on, whoever asks for
it gets the record that is kept for this build, whatever is done in between. -/
def Engine.BuiltOnce (e : Engine σ) (s : Session σ) : Prop :=
  s.newBuilds.Nodup ∧ s.pushes.Nodup ∧ s.signals.Nodup ∧
    ∀ i raw, s.firstBuild? i = some raw → ∃ kept, e.IsKeptFor raw kept ∧
      ∀ (more : List Operation) (r : RecursionRequest) (signalled : Bool), r.identity = i →
        ends (e.recurse r signalled) (e.after more s) = (.ok (some kept), e.after more s)

/-- Where each module is tracked once it was built once. -/
theorem Once.builtOnce {s : Session σ} (hs : e.Remembers s) (h : Once e fits s) : e.BuiltOnce s := by
  refine ⟨h.newBuilds.1, h.pushes.1, h.signals.1, fun i raw hraw => ?_⟩
  obtain ⟨kept, hkept, hfor⟩ := h.first i raw hraw
  refine ⟨kept, hfor, fun more r signalled hr => ?_⟩
  apply Engine.ends_recurse_of_find?
  rw [hr]
  exact (e.moves_after hs more).find?_mono hkept

/-- What holds of the builder at the start is enough. -/
theorem Engine.builtOnce_after (hb : e.builder.BuildsOnce fits) {x : σ} (hx : fits x fun _ => False)
    {ops : List Operation} (hentry : ops.countP Operation.isEntry ≤ 1)
    (hmain : ∀ op ∈ ops, op.asksForMain = false) : e.BuiltOnce (e.after ops (.fresh x)) := by
  have hs : e.Remembers (.fresh x) := .of_nil rfl
  exact ((Once.fresh hx).after hb hs hmain (Or.inr ⟨hentry, Session.noMain_fresh x⟩)).builtOnce (hs.moves (e.moves_after hs ops))

end Operations

/-- Over a table and over sources, whatever the policy and the plugins: after any operations, failed ones included, of
which at most one builds the entry and none asks for the main module by its name, every identity was built newly, queued
and signalled at most once, and is from its first build on the record that every request for it gets. -/
theorem built_once_after (policy : Policy) (tree : FileTree) (table : List (ModuleName × TableModule))
    (search : SearchPath) (sources : FileTree) (ops : List Operation) (hentry : ops.countP Operation.isEntry ≤ 1)
    (hmain : ∀ op ∈ ops, op.asksForMain = false) :
    (let e : Engine _ := ⟨policy, tree, .ofTable table⟩; e.BuiltOnce (e.after ops (.fresh []))) ∧
      (let e : Engine _ := ⟨policy, tree, .ofSources search sources⟩; e.BuiltOnce (e.after ops (.fresh []))) :=
  ⟨Engine.builtOnce_after (Builder.buildsOnce_ofTable table) trivial hentry hmain,
    Engine.builtOnce_after (Builder.buildsOnce_ofSources search sources) (fun _ h => h.elim) hentry hmain⟩

/-- An engine over a table whose entry imports a package twice, by its directory and by its init entry. -/
def twoSpellings : Engine (List BuildRequest) :=
  let edge (file : String) : ImportEdge := .found ⟨"pkg"⟩ ⟨⟨file⟩⟩ .source 0 ⟨⟨"/w/main.py"⟩, 1⟩
  let table := [
    (.main, { uses := [edge "/w/pkg", edge "/w/pkg/__init__.py"] }),
    (⟨"pkg"⟩, { isPackage := true })]
  { policy := { options := { followAll := true }, followTo := [], nofollowTo := [], bytecodeModules := [] }
    tree := .empty ⟨"/w"⟩
    builder := .ofTable table }

/-- Both spellings lead to one build, before and after the package is asked for by a third one. -/
theorem built_once_after_two_spellings :
    let ops : List Operation :=
      [.addEntry ⟨"main.py"⟩, .pass, .recurse ⟨⟨"pkg"⟩, ⟨⟨"/w/pkg/"⟩⟩, .source, none, none, ""⟩ true]
    (twoSpellings.after ops (.fresh [])).newBuilds =
        [⟨⟨"pkg"⟩, [.root, .name "w", .name "pkg"]⟩, ⟨.main, [.root, .name "w", .name "main.py"]⟩] ∧
      twoSpellings.BuiltOnce (twoSpellings.after ops (.fresh [])) :=
  ⟨by decide +kernel,
    (built_once_after twoSpellings.policy twoSpellings.tree _ {} (.empty ⟨"/w"⟩) _ (by decide) (by decide)).1⟩

end ImportClosure
