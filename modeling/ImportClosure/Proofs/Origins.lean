import ImportClosure.Proofs.Operations

/-!
# Where kept modules come from

Whatever is done to a session, a module that it keeps came in as the entry, or the builder gave it for a request that the
plugins let through (`Engine.exists_origin`). Such a request was made from outside, or follows a decision to include the
module.
-/

namespace ImportClosure

variable {σ : Type} {e : Engine σ} {s s' : Session σ} {m : ModuleRecord}

open Step

namespace Engine

/-- A module comes in as the entry: one of the operations gives it as the entry, and no module of its identity was kept
before. -/
def Enters (e : Engine σ) (ops : List Operation) (s : Session σ) (m : ModuleRecord) : Prop :=
  ∃ before path behind s', ops = before ++ .addEntry path :: behind ∧
    ends (e.addEntry path) (e.after before s) = (.ok m, s') ∧ ¬ (e.after before s).Keeps m.identity

/-- A module is built for a request: the plugins let the request through, and the builder gives the module. -/
def Grants (e : Engine σ) (r : RecursionRequest) (m : ModuleRecord) : Prop :=
  e.policy.plugins.recursion r = .ok () ∧
    ∃ x o, (e.builder.build r.toBuild x).1.result = .ok (some o) ∧ o.record = m

/-- How requests come about: they are operations themselves, or they follow a decision to include the module. -/
def Makes (e : Engine σ) (ops : List Operation) (r : RecursionRequest) : Prop :=
  (∃ signalled, Operation.recurse r signalled ∈ ops) ∨ ∃ q reason, r.AsksFor q ∧ e.Stands q (.included reason)

/-- What some operations ask for more operations do. -/
theorem Makes.mono {ops ops' : List Operation} {r : RecursionRequest} (h : e.Makes ops r) (hsub : ops ⊆ ops') :
    e.Makes ops' r :=
  h.imp (fun ⟨signalled, hmem⟩ => ⟨signalled, hsub hmem⟩) id

/-- Asking for a module brings in no more than what is built for the request. -/
theorem mem_of_recurse {r : RecursionRequest} {signalled : Bool}
    (hm : m ∈ (ends (e.recurse r signalled) s).2.cache.modules) : m ∈ s.cache.modules ∨ e.Grants r m := by
  obtain ⟨result, s₁, hr, hc⟩ := e.recursed r signalled s
  cases hp : e.policy.plugins.recursion r with
  | error what =>
    cases hf : s.cache.find? r.identity with
    | none =>
      rw [ends_recurse_of_refused hf hp] at hm
      exact Or.inl hm
    | some kept =>
      rw [ends_recurse_of_find? hf] at hm
      exact Or.inl hm
  | ok _ =>
    rw [hr] at hm
    cases hc with
    | built events hnone hb =>
      rcases Cache.mem_add hm with hm | ⟨rfl, _⟩
      · exact Or.inl hm
      · exact Or.inr ⟨hp, _, _, hb, rfl⟩
    | _ => exact Or.inl hm

/-- Fetching a module keeps what asking for it keeps. -/
theorem cache_of_fetch (r : RecursionRequest) :
    (ends (e.fetch r) s).2.cache = (ends (e.recurse r false) s).2.cache := by
  unfold fetch
  rcases h : ends (e.recurse r false) s with ⟨err | _ | m, s₁⟩
  · rw [ends_bind_error h]
  · rw [ends_bind_ok h]
    rfl
  · rw [ends_bind_ok h]
    rfl

/-- Building the entry brings in no more than what it gives. -/
theorem mem_of_addEntry {path : Path} (hm : m ∈ (ends (e.addEntry path) s).2.cache.modules) :
    m ∈ s.cache.modules ∨ ∃ s', ends (e.addEntry path) s = (.ok m, s') ∧ ¬ s.Keeps m.identity := by
  obtain ⟨result, s₁, hr, hc⟩ := e.entered path s
  rw [hr] at hm
  cases hc with
  | failed => exact Or.inl hm
  | built events hb =>
    rcases Cache.mem_add (c := s.cache) hm with hm | ⟨rfl, hnone⟩
    · exact Or.inl hm
    · refine Or.inr ⟨_, by rw [hr, Cache.add_of_none hnone], ?_⟩
      rw [Session.Keeps, hnone]
      exact Bool.false_ne_true

end Engine

/-- A sanctioned action brings in no more than what is built for a request that follows a decision. -/
theorem Move.mem_of_sanctioned {a : Action} (h : Move e a s s') (ha : a.Sanctioned e) (hm : m ∈ s'.cache.modules) :
    m ∈ s.cache.modules ∨ ∃ r, e.Grants r m ∧ e.Makes [] r := by
  cases a with
  | recursed r signalled =>
    cases h
    exact (Engine.mem_of_recurse hm).imp id fun hg => ⟨r, hg, Or.inr ha⟩
  | fetched r =>
    cases h
    rw [Engine.cache_of_fetch] at hm
    exact (Engine.mem_of_recurse hm).imp id fun hg => ⟨r, hg, Or.inr ha⟩
  | entered => exact ha.elim
  | drained =>
    cases h
    exact Or.inl hm
  | _ =>
    rw [(h.alike rfl).cache] at hm
    exact Or.inl hm

namespace Engine

/-- What a run of sanctioned actions brings in. -/
theorem mem_of_moves (h : Moves e (Action.Sanctioned e) s s') (hm : m ∈ s'.cache.modules) :
    m ∈ s.cache.modules ∨ ∃ r, e.Grants r m ∧ e.Makes [] r := by
  refine h.keeps (P := fun s' => ∀ m ∈ s'.cache.modules, m ∈ s.cache.modules ∨ ∃ r, e.Grants r m ∧ e.Makes [] r)
    ?_ (fun _ h => Or.inl h) m hm
  intro a s₁ s₂ ha hmove h m hm
  rcases hmove.mem_of_sanctioned ha hm with hm | hnew
  · exact h m hm
  · exact Or.inr hnew

/-- What one operation brings in. -/
theorem mem_of_next (hs : e.Remembers s) {op : Operation} (hm : m ∈ (e.next s op).cache.modules) :
    m ∈ s.cache.modules ∨ e.Enters [op] s m ∨ ∃ r, e.Grants r m ∧ e.Makes [op] r := by
  cases op with
  | addEntry path =>
    rw [next, Operation.perform, snd_ends_drop] at hm
    exact (mem_of_addEntry hm).imp id fun ⟨s₁, hr, hnew⟩ => Or.inl ⟨[], path, [], s₁, rfl, hr, hnew⟩
  | recurse r signalled =>
    rw [next, Operation.perform, snd_ends_drop] at hm
    exact (mem_of_recurse hm).imp id fun hg => Or.inr ⟨r, hg, Or.inl ⟨signalled, List.mem_singleton.2 rfl⟩⟩
  | walk | seed | pass | run | consider | decide =>
    refine (mem_of_moves (Operation.perform_sanctioned _ hs ?_ ?_).1 hm).imp id fun ⟨r, hg, hr⟩ => ?_
    · rfl
    · rfl
    · exact Or.inr ⟨r, hg, hr.mono (List.nil_subset _)⟩

/-- Whatever is done to a session, a module that it keeps was kept before, came in as the entry, or was built for a
request. -/
theorem exists_origin (hs : e.Remembers s) {ops : List Operation} (hm : m ∈ (e.after ops s).cache.modules) :
    m ∈ s.cache.modules ∨ e.Enters ops s m ∨ ∃ r, e.Grants r m ∧ e.Makes ops r := by
  induction ops generalizing s with
  | nil => exact Or.inl hm
  | cons op ops ih =>
    rcases ih (hs.moves (moves_next hs op)) hm with hm | ⟨before, path, behind, s₁, rfl, hr, hnew⟩ | ⟨r, hg, hr⟩
    · rcases mem_of_next hs hm with hm | ⟨before, path, behind, s₁, hop, hr, hnew⟩ | ⟨r, hg, hr⟩
      · exact Or.inl hm
      · refine Or.inr (Or.inl ⟨before, path, behind ++ ops, s₁, ?_, hr, hnew⟩)
        rw [← List.singleton_append, hop, List.append_assoc, List.cons_append]
      · exact Or.inr (Or.inr ⟨r, hg, hr.mono (by simp)⟩)
    · exact Or.inr (Or.inl ⟨op :: before, path, behind, s₁, rfl, hr, hnew⟩)
    · exact Or.inr (Or.inr ⟨r, hg, hr.mono (List.subset_cons_self op ops)⟩)

/-- In a session that has just begun nothing was kept before. -/
theorem exists_origin_of_fresh {x : σ} {ops : List Operation} (hm : m ∈ (e.after ops (.fresh x)).cache.modules) :
    e.Enters ops (.fresh x) m ∨ ∃ r, e.Grants r m ∧ e.Makes ops r :=
  (exists_origin (.of_nil rfl) hm).resolve_left fun h => nomatch h

end Engine

end ImportClosure
