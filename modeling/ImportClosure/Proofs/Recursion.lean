import ImportClosure.Proofs.Cache
import ImportClosure.Proofs.Step
import ImportClosure.Session.Walk

/-!
# Asking for a module

What the steps that bring a module in come to, in closed form: a decision (`ends_decide`), a build (`ends_build`), an
included module (`Recursed`) and the entry (`Entered`). Whatever is proved of sessions goes through these and does not
open the steps again.
-/

namespace ImportClosure

variable {σ : Type}

open Step

namespace Session

/-- The session that accepting a built module leaves. -/
def accepted (s : Session σ) (o : BuildOutcome) (reason : String) (signalled : Bool) : Session σ :=
  let kept := (s.cache.add o.record).1
  { s with
    cache := (s.cache.add o.record).2
    pending := if o.newlyBuilt then s.pending ++ [⟨kept, o.uses⟩] else s.pending
    changes := if o.newlyBuilt && signalled then s.changes ++ [⟨kept.name, kept.sourceRef, reason⟩] else s.changes
    history := if o.newlyBuilt then .queued kept :: s.history else s.history }

/-- The session that the builder's answer leaves. -/
def built (s : Session σ) (builder : σ) (events : List Event) (o : BuildOutcome) : Session σ :=
  { s with builder, events, history := .built o.record o.newlyBuilt :: s.history }

/-- The session in which a built module has become the entry. -/
def entered (s : Session σ) (entry : ModuleRecord) (uses : List ImportEdge) : Session σ :=
  let kept := (s.cache.add entry).1
  { s with
    cache := (s.cache.add entry).2
    registry := s.registry.setEntry kept
    pending := s.pending ++ [⟨kept, uses⟩]
    history := .queued kept :: s.history }

end Session

namespace Engine

/-! ## Decisions -/

/-- A decision is looked up, or made and remembered. -/
theorem ends_decide (e : Engine σ) (q : Query) (s : Session σ) :
    (∃ d, s.decisions.lookup q.key = some d ∧ ends (e.decide q) s = (.ok d, s)) ∨
    (s.decisions.lookup q.key = none ∧ ∃ events, ends (e.decide q) s =
      (.ok (e.policy.decide q), { s with events, decisions := (q.key, e.policy.decide q) :: s.decisions })) := by
  unfold Engine.decide
  rw [ends_bind_ok (ends_get s)]
  cases h : s.decisions.lookup q.key with
  | some d => exact Or.inl ⟨d, rfl, rfl⟩
  | none =>
    right
    refine ⟨rfl, ?_⟩
    cases e.policy.reachesPlugins q
    · exact ⟨s.events, rfl⟩
    · exact ⟨.encounter q :: s.events, rfl⟩

/-- Asking for a decision never fails. -/
theorem exists_ends_decide (e : Engine σ) (q : Query) (s : Session σ) : ∃ d s', ends (e.decide q) s = (.ok d, s') := by
  rcases e.ends_decide q s with ⟨d, _, h⟩ | ⟨_, events, h⟩
  · exact ⟨_, _, h⟩
  · exact ⟨_, _, h⟩

/-- A decision that was asked for is remembered. -/
theorem lookup_of_decide {e : Engine σ} {q : Query} {d : Decision} {s s' : Session σ}
    (h : ends (e.decide q) s = (.ok d, s')) : s'.decisions.lookup q.key = some d := by
  rcases e.ends_decide q s with ⟨d', hd', hq⟩ | ⟨_, _, hq⟩
  · obtain ⟨hd, rfl⟩ := Prod.mk.inj (hq.symm.trans h)
    cases hd
    exact hd'
  · obtain ⟨hd, rfl⟩ := Prod.mk.inj (hq.symm.trans h)
    cases hd
    simp

/-! ## Builds -/

/-- Notes about sources that were passed over only add to the log. -/
theorem foldl_note (notes : List BuildNote) (s : Session σ) :
    ∃ events, notes.foldl (fun s what => s.note (.passedOver what)) s = { s with events } := by
  induction notes generalizing s with
  | nil => exact ⟨s.events, rfl⟩
  | cons what notes ih =>
    obtain ⟨events, h⟩ := ih (s.note (.passedOver what))
    exact ⟨events, h⟩

/-- The builder is asked once; what it answers is noted. -/
theorem ends_build (e : Engine σ) (r : BuildRequest) (s : Session σ) :
    ∃ events, ends (e.build r) s =
      match (e.builder.build r s.builder).1.result with
      | .error err => (.error err, { s with builder := (e.builder.build r s.builder).2, events })
      | .ok none => (.ok none, { s with builder := (e.builder.build r s.builder).2, events })
      | .ok (some o) => (.ok (some o), s.built (e.builder.build r s.builder).2 events o) := by
  obtain ⟨events, h⟩ := foldl_note (e.builder.build r s.builder).1.notes
    { s with builder := (e.builder.build r s.builder).2 }
  refine ⟨events, ?_⟩
  unfold Engine.build
  rw [ends_bind_ok (ends_get s), ends_bind_ok (ends_set _ _), h]
  rcases (e.builder.build r s.builder).1.result with err | _ | o <;> rfl

/-- Accepting a built module never fails. -/
theorem ends_accept (o : BuildOutcome) (reason : String) (signalled : Bool) (s : Session σ) :
    ends (accept o reason signalled) s = (.ok (s.cache.add o.record).1, s.accepted o reason signalled) := by
  unfold accept
  rw [ends_bind_ok (ends_get s)]
  unfold Session.accepted
  cases o.newlyBuilt <;> cases signalled <;> rfl

end Engine

/-! ## Included modules -/

/-- The module that a request for an included module asks for. -/
def RecursionRequest.identity (r : RecursionRequest) : Identity :=
  ⟨r.name, r.file.place⟩

/-- What asking for an included module comes to. -/
inductive Recursed (e : Engine σ) (r : RecursionRequest) (signalled : Bool) (s : Session σ) :
    Except Error (Option ModuleRecord) → Session σ → Prop where
  /-- The module is kept already. -/
  | known {kept : ModuleRecord} (h : s.cache.get? r.name r.file = some kept) :
      Recursed e r signalled s (.ok (some kept)) s
  /-- The plugins forbid it. -/
  | refused {what : ForbiddenImport} (h : s.cache.get? r.name r.file = none)
      (hp : e.policy.plugins.recursion r = .error what) : Recursed e r signalled s (.error (.forbidden what)) s
  /-- The builder fails. -/
  | failed {err : Error} (events : List Event) (h : s.cache.get? r.name r.file = none)
      (hb : (e.builder.build r.toBuild s.builder).1.result = .error err) :
      Recursed e r signalled s (.error err) { s with builder := (e.builder.build r.toBuild s.builder).2, events }
  /-- The builder passes it over. -/
  | passedOver (events : List Event) (h : s.cache.get? r.name r.file = none)
      (hb : (e.builder.build r.toBuild s.builder).1.result = .ok none) :
      Recursed e r signalled s (.ok none) { s with builder := (e.builder.build r.toBuild s.builder).2, events }
  /-- The builder gives a module. -/
  | built {o : BuildOutcome} (events : List Event) (h : s.cache.get? r.name r.file = none)
      (hb : (e.builder.build r.toBuild s.builder).1.result = .ok (some o)) :
      Recursed e r signalled s (.ok (some (s.cache.add o.record).1))
        ((s.built (e.builder.build r.toBuild s.builder).2 events o).accepted o r.reason signalled)

/-- The module that is got is kept under its identity. -/
theorem Recursed.find?_eq {e : Engine σ} {r : RecursionRequest} {signalled : Bool} {s s' : Session σ}
    {m : ModuleRecord} (h : Recursed e r signalled s (.ok (some m)) s') : s'.cache.find? m.identity = some m := by
  cases h with
  | known hk =>
    rw [Cache.identity_of_find? hk]
    exact hk
  | built events hn hb =>
    rw [Cache.identity_add]
    exact Cache.find?_add_self

namespace Engine

/-- Asking for an included module comes to what `Recursed` lists. -/
theorem recursed (e : Engine σ) (r : RecursionRequest) (signalled : Bool) (s : Session σ) :
    ∃ result s', ends (e.recurse r signalled) s = (result, s') ∧ Recursed e r signalled s result s' := by
  refine ⟨(ends (e.recurse r signalled) s).1, (ends (e.recurse r signalled) s).2, rfl, ?_⟩
  unfold Engine.recurse
  rw [ends_bind_ok (ends_get s)]
  cases hc : s.cache.get? r.name r.file with
  | some kept => exact .known hc
  | none =>
    cases hp : e.policy.plugins.recursion r with
    | error what => exact .refused hc hp
    | ok _ =>
      obtain ⟨events, hb⟩ := ends_build e r.toBuild (s.note (.recursion r))
      rw [show (s.note (.recursion r)).builder = s.builder from rfl] at hb
      simp only [ends_bind_ok (ends_update _ s)]
      rcases hr : (e.builder.build r.toBuild s.builder).1.result with err | _ | o <;> rw [hr] at hb
      · rw [ends_bind_error hb]
        exact .failed events hc hr
      · rw [ends_bind_ok hb]
        exact .passedOver events hc hr
      · rw [ends_bind_ok hb]
        simp only [ends_bind_ok (ends_accept ..)]
        exact .built events hc hr

/-- A module that is kept is what a request for it comes to. -/
theorem ends_recurse_of_find? {e : Engine σ} {s : Session σ} {r : RecursionRequest} {signalled : Bool}
    {kept : ModuleRecord} (h : s.cache.find? r.identity = some kept) :
    ends (e.recurse r signalled) s = (.ok (some kept), s) := by
  unfold Engine.recurse
  rw [ends_bind_ok (ends_get s), show s.cache.get? r.name r.file = some kept from h]
  rfl

/-- A module that is not kept is not built if the plugins forbid it. -/
theorem ends_recurse_of_refused {e : Engine σ} {s : Session σ} {r : RecursionRequest} {signalled : Bool}
    {what : ForbiddenImport} (h : s.cache.find? r.identity = none) (hp : e.policy.plugins.recursion r = .error what) :
    ends (e.recurse r signalled) s = (.error (.forbidden what), s) := by
  unfold Engine.recurse
  rw [ends_bind_ok (ends_get s), show s.cache.get? r.name r.file = none from h, hp]
  rfl

/-- What is asked for by its path is asked for like any other module, and the history tells of it. -/
theorem fetched (e : Engine σ) (r : RecursionRequest) (s : Session σ) :
    ∃ result s', Recursed e r false s result s' ∧ ends (e.fetch r) s =
      (result, match result with
        | .ok (some m) => s'.reach (.obtained m)
        | _ => s') := by
  obtain ⟨result, s', hr, h⟩ := e.recursed r false s
  refine ⟨result, s', h, ?_⟩
  unfold fetch
  rcases result with err | _ | m
  · rw [ends_bind_error hr]
  · rw [ends_bind_ok hr]
    rfl
  · rw [ends_bind_ok hr]
    rfl

/-! ## The entry -/

/-- Making a built module the entry never fails. -/
theorem ends_acceptEntry (e : Engine σ) (o : BuildOutcome) (s : Session σ) :
    ∃ events, ends (e.acceptEntry o) s =
      (.ok (s.cache.add (e.entryRecord o.record)).1, { s.entered (e.entryRecord o.record) o.uses with events }) := by
  unfold acceptEntry trace
  rw [ends_bind_ok (ends_get s)]
  cases e.policy.options.showInclusion
  · exact ⟨s.events, rfl⟩
  · exact ⟨_ :: s.events, rfl⟩

end Engine

/-- What building the entry comes to. -/
inductive Entered (e : Engine σ) (path : Path) (s : Session σ) : Except Error ModuleRecord → Session σ → Prop where
  /-- The builder fails, or passes the entry over. -/
  | failed (err : Error) (events : List Event)
      (hb : ∀ o, (e.builder.build (e.entryBuild path) s.builder).1.result ≠ .ok (some o)) :
      Entered e path s (.error err)
        { s with builder := (e.builder.build (e.entryBuild path) s.builder).2, events }
  /-- The builder gives the entry. -/
  | built {o : BuildOutcome} (events : List Event)
      (hb : (e.builder.build (e.entryBuild path) s.builder).1.result = .ok (some o)) :
      Entered e path s (.ok (s.cache.add (e.entryRecord o.record)).1)
        { (s.built (e.builder.build (e.entryBuild path) s.builder).2 [] o).entered (e.entryRecord o.record) o.uses with
          events }

namespace Engine

/-- Building the entry comes to what `Entered` lists. -/
theorem entered (e : Engine σ) (path : Path) (s : Session σ) :
    ∃ result s', ends (e.addEntry path) s = (result, s') ∧ Entered e path s result s' := by
  refine ⟨(ends (e.addEntry path) s).1, (ends (e.addEntry path) s).2, rfl, ?_⟩
  obtain ⟨events, hb⟩ := ends_build e (e.entryBuild path) s
  unfold addEntry
  rcases hr : (e.builder.build (e.entryBuild path) s.builder).1.result with err | _ | o <;> rw [hr] at hb
  · rw [ends_bind_error hb]
    exact .failed err events (by simp [hr])
  · rw [ends_bind_ok hb]
    exact .failed _ events (by simp [hr])
  · rw [ends_bind_ok hb]
    obtain ⟨events', ha⟩ := ends_acceptEntry e o (s.built (e.builder.build (e.entryBuild path) s.builder).2 events o)
    simp only [ha]
    exact .built events' hr

theorem entered_of_ends {e : Engine σ} {path : Path} {s s' : Session σ} {result : Except Error ModuleRecord}
    (h : ends (e.addEntry path) s = (result, s')) : Entered e path s result s' := by
  obtain ⟨_, _, hr, hc⟩ := e.entered path s
  obtain ⟨rfl, rfl⟩ := Prod.mk.inj (h.symm.trans hr)
  exact hc

end Engine

end ImportClosure
