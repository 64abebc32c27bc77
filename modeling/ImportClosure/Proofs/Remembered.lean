import ImportClosure.Builder.Table
import ImportClosure.Proofs.Paths
import ImportClosure.Proofs.Preserved

/-!
# Remembered decisions

That decisions are remembered cannot be told from outside (`decide_eq_rendered`): where the plugins answer by the name and
kind of a module, a decision is always the one that the policy renders for just that query, and the plugins are asked about
a key once. The questions are part of the log, and of all steps only a decision puts one (`Engine.bears_askedOnce`).
-/

namespace ImportClosure

variable {σ : Type}

open Step

/-- The key of the question that an event puts to the plugins. -/
def Event.encounter? : Event → Option QueryKey
  | encounter q => some q.key
  | _ => none

/-- The keys of the questions that were put to the plugins, newest first. -/
def Session.encounters (s : Session σ) : List QueryKey :=
  s.events.filterMap Event.encounter?

/-- The plugins were asked about no key twice, and the decision about every key that they were asked about is
remembered. -/
structure Session.AskedOnce (s : Session σ) : Prop where
  nodup : s.encounters.Nodup
  remembered : ∀ k ∈ s.encounters, ∃ d, s.decisions.lookup k = some d

namespace Session

variable {s : Session σ}

/-- In a fresh session nothing was asked. -/
theorem askedOnce_fresh (x : σ) : (fresh x).AskedOnce :=
  ⟨List.nodup_nil, fun _ hk => nomatch hk⟩

/-- What was asked and decided is all that this depends on. -/
theorem AskedOnce.congr {s' : Session σ} (h : s.AskedOnce) (hencounters : s'.encounters = s.encounters)
    (hdecisions : s'.decisions = s.decisions) : s'.AskedOnce := by
  refine ⟨by rw [hencounters]; exact h.nodup, fun k hk => ?_⟩
  rw [hdecisions]
  exact h.remembered k (hencounters ▸ hk)

/-- An event that is no question may be noted. -/
theorem AskedOnce.note (h : s.AskedOnce) (event : Event) (hevent : event.encounter? = none) :
    (s.note event).AskedOnce :=
  h.congr (List.filterMap_cons_none hevent) rfl

/-- A decision that was not remembered may be remembered, whether the plugins were asked for it or not. -/
theorem AskedOnce.decided (h : s.AskedOnce) {q : Query} (hnew : s.decisions.lookup q.key = none) (d : Decision)
    {s' : Session σ} (hencounters : s'.encounters = q.key :: s.encounters ∨ s'.encounters = s.encounters)
    (hdecisions : s'.decisions = (q.key, d) :: s.decisions) : s'.AskedOnce := by
  have hfresh : q.key ∉ s.encounters := by
    intro hk
    obtain ⟨d', hd'⟩ := h.remembered _ hk
    rw [hnew] at hd'
    cases hd'
  have hlookup : ∀ k, k = q.key ∨ k ∈ s.encounters → ∃ d, s'.decisions.lookup k = some d := by
    rintro k (rfl | hk)
    · exact ⟨d, by rw [hdecisions, List.lookup_cons_self]⟩
    · obtain ⟨d', hd'⟩ := h.remembered k hk
      have hne : (k == q.key) = false := beq_eq_false_iff_ne.2 fun heq => hfresh (heq ▸ hk)
      exact ⟨d', by rw [hdecisions, List.lookup_cons, hne]; exact hd'⟩
  rcases hencounters with hs' | hs'
  · refine ⟨by rw [hs']; exact List.nodup_cons.2 ⟨hfresh, h.nodup⟩, fun k hk => hlookup k ?_⟩
    exact List.mem_cons.1 (hs' ▸ hk)
  · refine ⟨by rw [hs']; exact h.nodup, fun k hk => hlookup k (Or.inr ?_)⟩
    exact hs' ▸ hk

end Session

/-! ## Every step asks once -/

section Steps

variable {e : Engine σ}

namespace Engine

/-- A decision puts its question if it is not remembered, and is remembered then. -/
theorem decide_preserves (q : Query) : Preserves Session.AskedOnce (e.decide q) := by
  refine .get_bind fun s hs => ?_
  cases hnew : s.decisions.lookup q.key with
  | some d => exact hs
  | none =>
    cases e.policy.reachesPlugins q with
    | false => exact hs.decided hnew (e.policy.decide q) (Or.inr rfl) rfl
    | true => exact hs.decided hnew (e.policy.decide q) (Or.inl rfl) rfl

/-- Only a decision puts a question. -/
theorem bears_askedOnce : e.Bears Session.AskedOnce where
  decide := decide_preserves
  note {s event} hevent hs := by
    refine hs.note event ?_
    cases event with
    | encounter q => exact absurd rfl (hevent q)
    | _ => rfl
  diagnose _ hs := (hs.note (.diagnosed _) rfl).congr rfl rfl
  congr hs hdecisions hevents _ _ := hs.congr (congrArg (List.filterMap Event.encounter?) hevents) hdecisions

theorem askedOnce_reported {s : Session σ} (hs : s.AskedOnce) (m : ModuleRecord) (edge : ImportEdge) :
    (s.reported m edge).AskedOnce := by
  unfold Session.reported Session.warnUnresolved
  split
  · split
    · exact hs
    · exact (hs.note (.diagnosed _) rfl).congr rfl rfl
  · exact hs

theorem consider_preserves (m : ModuleRecord) (edges : List ImportEdge) :
    Preserves Session.AskedOnce (e.consider m edges) :=
  .bind (.forM fun edge _ hs => bears_askedOnce.considerEdge (askedOnce_reported hs m edge)) fun _ =>
    bears_askedOnce.declared m

theorem runPass_preserves : Preserves Session.AskedOnce e.runPass := by
  intro s hs
  have hall : Preserves Session.AskedOnce (s.pending.forM e.consume) := .forM fun m => consider_preserves m.record m.uses
  have hrest := hall { s with pending := [] } (hs.congr rfl rfl)
  rw [ends_runPass]
  split
  next h => rwa [h] at hrest
  next h => rwa [h] at hrest

theorem runPasses_preserves (bound : Nat) : Preserves Session.AskedOnce (e.runPasses bound) := by
  induction bound with
  | zero => exact .pure _
  | succ bound ih =>
    refine .bind runPass_preserves fun signals => .get_bind fun s hs => ?_
    split
    · exact hs
    · exact Preserves.bind ih (fun _ => .pure _) s hs

theorem runToFixedPoint_preserves (bound : Nat) : Preserves Session.AskedOnce (e.runToFixedPoint bound) := by
  refine .bind (runPasses_preserves bound) fun passes => ?_
  cases passes with
  | none => exact .pure _
  | some passes => exact .bind (.update fun _ hs => hs.note _ rfl) fun _ => .get_bind fun _ hs => hs

end Engine

/-- Whatever is done to a session, no question is put twice. -/
theorem Operation.perform_preserves (op : Operation) : Preserves Session.AskedOnce (op.perform e) := by
  have h : e.Bears Session.AskedOnce := Engine.bears_askedOnce
  cases op with
  | addEntry path => exact .bind (h.addEntry path) fun _ => .pure _
  | walk item => exact h.walk item
  | seed includes base => exact h.seedIncludes includes base
  | pass => exact .bind Engine.runPass_preserves fun _ => .pure _
  | run bound => exact .bind (Engine.runToFixedPoint_preserves bound) fun _ => .pure _
  | consider m edges => exact Engine.consider_preserves m edges
  | recurse r signalled => exact .bind (h.recurse r signalled) fun _ => .pure _
  | decide q => exact .bind (h.decide q) fun _ => .pure _

theorem Session.AskedOnce.after {s : Session σ} (hs : s.AskedOnce) (ops : List Operation) : (e.after ops s).AskedOnce := by
  induction ops generalizing s with
  | nil => exact hs
  | cons op ops ih => exact ih (op.perform_preserves s hs)

end Steps

/-! ## Decisions -/

/-- A session that remembers only what the policy rendered decides as the policy does, if decisions depend on the key of
a query only. -/
theorem Engine.Remembers.ends_decide_eq {e : Engine σ} {s : Session σ} (hs : e.Remembers s)
    (hcongr : ∀ q q' : Query, q.key = q'.key → e.policy.decide q = e.policy.decide q') (q : Query) :
    (ends (e.decide q) s).1 = .ok (e.policy.decide q) := by
  obtain ⟨d, s', h⟩ := e.exists_ends_decide q s
  obtain ⟨q', hkey, rfl⟩ := e.stands_of_decide hs h
  rw [h, hcongr q' q hkey]

/-- Where plugins decide by the name and kind of a module, and what is library code depends on the place of a file, it cannot be
told
that decisions are remembered: whatever was done to a session, failed operations included, a decision about any query is
the one that the policy renders for just that query, and so it is in a session in which nothing has happened. The plugins
have been asked about no key twice. -/
theorem decide_eq_rendered {e : Engine σ} (hl : e.policy.library.IgnoresSpelling)
    (hp : ∀ f g name kind, e.policy.plugins.encounter f name kind = e.policy.plugins.encounter g name kind) (x : σ)
    (ops : List Operation) :
    let s := e.after ops (.fresh x)
    (∀ q, (ends (e.decide q) s).1 = .ok (e.policy.decide q)) ∧
      (∀ q y, (ends (e.decide q) (.fresh y)).1 = .ok (e.policy.decide q)) ∧ s.encounters.Nodup := by
  intro s
  have hcongr : ∀ q q' : Query, q.key = q'.key → e.policy.decide q = e.policy.decide q' :=
    fun q q' h => Policy.decide_congr hl hp h
  have hfresh : ∀ y, e.Remembers (.fresh y) := fun y => .of_nil rfl
  have hs : e.Remembers s := (hfresh x).moves (Engine.moves_after (hfresh x) ops)
  have hasked : s.AskedOnce := (Session.askedOnce_fresh x).after ops
  exact ⟨hs.ends_decide_eq hcongr, fun q y => (hfresh y).ends_decide_eq hcongr q, hasked.nodup⟩

/-- An engine that follows the library, which is one package, over nothing that could be built. -/
def libraryFollowed : Engine (List BuildRequest) where
  policy :=
    { options := { followStdlib := true }, followTo := [], nofollowTo := [], bytecodeModules := [],
      plugins := ({ bytecode := [⟨"json.tool"⟩] } : PluginTable).plugins,
      library := ({ roots := [⟨"/lib/json"⟩] } : LibraryRoots).library }
  tree := .empty ⟨"/w"⟩
  builder := .ofTable []

/-- The package of the library, asked about by its init entry or by its directory, as an import does. -/
def libraryQuery (path : Path) : Query :=
  ⟨⟨path⟩, ⟨"json"⟩, .source, false⟩

/-- What was decided about the init entry of a package is what is decided about its directory, behind an entry that cannot
be built; the plugins are asked about the one key of both, and once. -/
theorem decide_eq_rendered_initEntry :
    let e := libraryFollowed
    let init := libraryQuery ⟨"/lib/json/__init__.py"⟩
    let dir := libraryQuery ⟨"/lib/json"⟩
    let ops : List Operation := [.decide init, .addEntry ⟨"main.py"⟩, .decide dir]
    let s := e.after ops (.fresh [])
    init.file.path ≠ dir.file.path ∧ init.key = dir.key ∧ s.encounters = [dir.key] ∧
      (ends (e.decide dir) s).1 = .ok (.included .followStdlib) := by
  refine ⟨by decide, by decide, by decide +kernel, ?_⟩
  have h := decide_eq_rendered (e := libraryFollowed) (LibraryRoots.ignoresSpelling (by decide)) (fun _ _ _ _ => rfl) []
    [.decide (libraryQuery ⟨"/lib/json/__init__.py"⟩), .addEntry ⟨"main.py"⟩, .decide (libraryQuery ⟨"/lib/json"⟩)]
  exact (h.1 _).trans (by with_unfolding_all rfl)

end ImportClosure
