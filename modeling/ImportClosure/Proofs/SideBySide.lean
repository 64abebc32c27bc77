import ImportClosure.Proofs.Counterparts
import ImportClosure.Proofs.Registry

/-!
# Sessions side by side

Two steps correspond if from sessions that are related they come to values that correspond, or to errors of one kind, and leave
sessions that are related (`Step.Corresponds`), with a rule for each way to put steps together. Two sessions are related here if
they keep counterparts throughout (`Session.Counterpart`).
-/

namespace ImportClosure

open ImportClosure.Path Step

/-! ## Steps -/

/-- The word for a kind of error. -/
def Error.kind : Error → String
  | forbidden _ => "forbidden-import"
  | violation _ => "invariant-violation"
  | badSource .. => "syntax"
  | badPattern .. => "invalid-pattern"
  | badConfig _ => "invalid-configuration"
  | buildFailed _ => "build-failed"
  | io _ => "io"
  | json => "json"
  | toml => "toml"
  | unfinished => "unfinished"

/-- Two values that correspond, or two errors of one kind. -/
inductive Except.Corresponds {α β : Type} (R : α → β → Prop) : Except Error α → Except Error β → Prop where
  | ok {a : α} {b : β} (h : R a b) : Corresponds R (.ok a) (.ok b)
  | error {err err' : Error} (h : err.kind = err'.kind) : Corresponds R (.error err) (.error err')

/-- From sessions that are related two steps come to values that correspond, or to errors of one kind, and leave sessions that
are related. -/
def Step.Corresponds {σ α β : Type} (S : Session σ → Session σ → Prop) (R : α → β → Prop) (x : Step σ α) (y : Step σ β) :
    Prop :=
  ∀ s s', S s s' → Except.Corresponds R (ends x s).1 (ends y s').1 ∧ S (ends x s).2 (ends y s').2

namespace Step.Corresponds

variable {σ α β γ δ : Type} {S : Session σ → Session σ → Prop} {R : α → β → Prop} {T : γ → δ → Prop} {x : Step σ α} {y : Step σ β}

theorem pure {a : α} {b : β} (h : R a b) : Corresponds S R (Pure.pure a) (Pure.pure b) :=
  fun _ _ hs => ⟨.ok h, hs⟩

theorem throw {err err' : Error} (h : err.kind = err'.kind) :
    Corresponds S R (MonadExcept.throw err) (MonadExcept.throw err') :=
  fun _ _ hs => ⟨.error h, hs⟩

theorem update {f g : Session σ → Session σ} (h : ∀ s s', S s s' → S (f s) (g s')) :
    Corresponds S (fun _ _ => True) (Engine.update f) (Engine.update g) :=
  fun s s' hs => ⟨.ok trivial, h s s' hs⟩

/-- Steps that correspond one behind the other correspond. -/
theorem bind {f : α → Step σ γ} {g : β → Step σ δ} (h : Corresponds S R x y) (hf : ∀ a b, R a b → Corresponds S T (f a) (g b)) :
    Corresponds S T (x >>= f) (y >>= g) := by
  intro s s' hs
  obtain ⟨hresult, hsessions⟩ := h s s' hs
  rcases hx : ends x s with ⟨result, s₁⟩
  rcases hy : ends y s' with ⟨result', s₁'⟩
  rw [hx, hy] at hresult hsessions
  cases hresult with
  | ok hab =>
    rw [ends_bind_ok hx, ends_bind_ok hy]
    exact hf _ _ hab s₁ s₁' hsessions
  | error herr =>
    rw [ends_bind_error hx, ends_bind_error hy]
    exact ⟨.error herr, hsessions⟩

/-- What is done with related sessions. -/
theorem get_bind {f : Session σ → Step σ γ} {g : Session σ → Step σ δ}
    (h : ∀ s s', S s s' → Except.Corresponds T (ends (f s) s).1 (ends (g s') s').1 ∧ S (ends (f s) s).2 (ends (g s') s').2) :
    Corresponds S T (get >>= f) (get >>= g) := by
  intro s s' hs
  rw [ends_bind_ok (ends_get s), ends_bind_ok (ends_get s')]
  exact h s s' hs

/-- Lists whose members correspond are gone through together. -/
theorem forM {f : α → Step σ PUnit} {g : β → Step σ PUnit} {xs : List α} {ys : List β} (h : List.Forall₂ R xs ys)
    (hf : ∀ a b, R a b → Corresponds S (fun _ _ => True) (f a) (g b)) :
    Corresponds S (fun _ _ => True) (xs.forM f) (ys.forM g) := by
  induction h with
  | nil => exact pure trivial
  | cons hab _ ih => exact bind (hf _ _ hab) fun _ _ _ => ih

end Step.Corresponds

/-! ## Lists -/

section Lists

variable {α β : Type} {R T : α → β → Prop} {xs : List α} {ys : List β} {p : α → Bool} {q : β → Bool}

/-- What is found first in one list corresponds to what is found first in the other. -/
theorem forall₂_find? (h : List.Forall₂ R xs ys) (hp : ∀ x y, R x y → p x = q y) : Option.Rel R (xs.find? p) (ys.find? q) := by
  induction h with
  | nil => exact .none
  | @cons x y _ _ hxy _ ih =>
    rw [List.find?_cons, List.find?_cons, hp x y hxy]
    cases q y with
    | true => exact .some hxy
    | false => exact ih

theorem forall₂_any (h : List.Forall₂ R xs ys) (hp : ∀ x y, R x y → p x = q y) : xs.any p = ys.any q := by
  induction h with
  | nil => rfl
  | @cons x y _ _ hxy _ ih => rw [List.any_cons, List.any_cons, hp x y hxy, ih]

theorem forall₂_isEmpty (h : List.Forall₂ R xs ys) : xs.isEmpty = ys.isEmpty := by
  cases h <;> rfl

/-- What is left of two lists may correspond in more than the lists do. -/
theorem forall₂_filter (h : List.Forall₂ R xs ys) (hp : ∀ x y, R x y → p x = q y) (hT : ∀ x y, R x y → p x = true → T x y) :
    List.Forall₂ T (xs.filter p) (ys.filter q) := by
  induction h with
  | nil => exact .nil
  | @cons x y _ _ hxy _ ih =>
    rw [List.filter_cons, List.filter_cons, ← hp x y hxy]
    by_cases hx : p x = true
    · rw [if_pos hx, if_pos hx]
      exact .cons (hT x y hxy hx) ih
    · rwa [if_neg hx, if_neg hx]

end Lists

/-! ## Sessions -/

/-- What two decisions are remembered under, for counterparts. -/
structure QueryKey.Counterpart (b b' : Place) (k k' : QueryKey) : Prop where
  identity : Identity.Counterpart b b' ⟨k.name, k.place⟩ ⟨k'.name, k'.place⟩
  kind_eq : k.kind = k'.kind
  explicit_eq : k.explicit = k'.explicit

/-- Two sessions with counterparts throughout, and diagnostics of the same kinds. -/
structure Session.Counterpart (b b' : Place) (n : Nat) (s s' : Session (List Identity)) : Prop where
  builder : List.Forall₂ (Identity.Counterpart b b') s.builder s'.builder
  decisions : List.Forall₂ (fun x y => x.1.Counterpart b b' y.1 ∧ x.2 = y.2) s.decisions s'.decisions
  modules : List.Forall₂ (ModuleRecord.Counterpart b b' n) s.cache.modules s'.cache.modules
  roots : List.Forall₂ (ModuleRecord.Counterpart b b' n) s.registry.roots s'.registry.roots
  pending : List.Forall₂ (fun x y => x.record.Counterpart b b' n y.record) s.pending s'.pending
  kinds : s.diagnostics.map Diagnostic.kind = s'.diagnostics.map Diagnostic.kind

/-- Decisions are remembered for counterparts alike. -/
theorem QueryKey.Counterpart.eq_iff {b b' : Place} {k k' j j' : QueryKey} (h : k.Counterpart b b' k')
    (h' : j.Counterpart b b' j') : k = j ↔ k' = j' := by
  have hid := h.identity.eq_iff h'.identity
  cases k
  cases k'
  cases j
  cases j'
  have hkind := h.kind_eq
  have hkind' := h'.kind_eq
  have hexplicit := h.explicit_eq
  have hexplicit' := h'.explicit_eq
  simp only [Identity.mk.injEq, QueryKey.mk.injEq] at *
  subst hkind hkind' hexplicit hexplicit'
  grind

namespace Session.Counterpart

variable {b b' : Place} {n : Nat} {s s' : Session (List Identity)} (h : s.Counterpart b b' n s')
include h

/-- Sessions that differ in their logs only correspond as before. -/
theorem of_eq_events {events events' : List Event} {history history' : List Milestone} :
    Session.Counterpart b b' n { s with events, history } { s' with events := events', history := history' } :=
  ⟨h.builder, h.decisions, h.modules, h.roots, h.pending, h.kinds⟩

/-- A decision is remembered for a key exactly if it is for its counterpart. -/
theorem lookup_eq {k k' : QueryKey} (hk : k.Counterpart b b' k') : s.decisions.lookup k = s'.decisions.lookup k' := by
  have hdecisions := h.decisions
  generalize s.decisions = xs, s'.decisions = ys at hdecisions
  clear h
  induction hdecisions with
  | nil => rfl
  | @cons x y _ _ hxy _ ih =>
    obtain ⟨key, d⟩ := x
    obtain ⟨key', d'⟩ := y
    obtain ⟨hkey, rfl⟩ : key.Counterpart b b' key' ∧ d = d' := hxy
    have heq : (k == key) = (k' == key') := Bool.eq_iff_iff.2 (by simpa using hk.eq_iff hkey)
    rw [List.lookup_cons, List.lookup_cons, heq, ih]

theorem diagnose {d d' : Diagnostic} (hd : d.kind = d'.kind) : (s.diagnose d).Counterpart b b' n (s'.diagnose d') := by
  refine ⟨h.builder, h.decisions, h.modules, h.roots, h.pending, ?_⟩
  simp only [Session.diagnose, Session.note, List.map_append, List.map_singleton, h.kinds, hd]

section Trees

variable {t t' : FileTree} (ht : t.SameBelow t' b b' n) {m m' : ModuleRecord}
include ht

/-- What is kept for counterparts are counterparts. -/
theorem find? {i i' : Identity} (hi : i.Counterpart b b' i') :
    Option.Rel (ModuleRecord.Counterpart b b' n) (s.cache.find? i) (s'.cache.find? i') :=
  forall₂_find? h.modules fun _ _ hm => ht.isOf_eq hm hi

/-- Counterparts are kept unless others are kept for them. -/
theorem add (hm : m.Counterpart b b' n m') : (s.cache.add m).1.Counterpart b b' n (s'.cache.add m').1 ∧
    List.Forall₂ (ModuleRecord.Counterpart b b' n) (s.cache.add m).2.modules (s'.cache.add m').2.modules := by
  have hfind := h.find? ht (ht.identity_record hm)
  unfold Cache.add
  rw [show Handle.identity m = m.identity from rfl, show Handle.identity m' = m'.identity from rfl]
  generalize s.cache.find? m.identity = kept, s'.cache.find? m'.identity = kept' at hfind
  cases hfind with
  | some hkept => exact ⟨hkept, h.modules⟩
  | none => exact ⟨hm, List.rel_append h.modules (.cons hm .nil)⟩

/-- To keep two modules that correspond leaves sessions that correspond. -/
theorem keep (hm : m.Counterpart b b' n m') : (s.keep m).2.Counterpart b b' n (s'.keep m').2 :=
  ⟨h.builder, h.decisions, (h.add ht hm).2, h.roots, h.pending, h.kinds⟩

theorem addRoot (hm : m.Counterpart b b' n m') : (s.addRoot m).Counterpart b b' n (s'.addRoot m') := by
  have hroot : s.registry.isRoot m.identity = s'.registry.isRoot m'.identity := by
    rw [Registry.isRoot_eq_any, Registry.isRoot_eq_any]
    exact forall₂_any h.roots fun _ _ hk => ht.isOf_eq hk (ht.identity_record hm)
  refine ⟨h.builder, h.decisions, h.modules, ?_, h.pending, h.kinds⟩
  simp only [Session.addRoot, Registry.roots_addRoot, hroot]
  split
  · exact h.roots
  · exact List.rel_append h.roots (.cons hm .nil)

/-- Counterparts that were built are taken in alike. -/
theorem accepted {o o' : BuildOutcome} (ho : o.record.Counterpart b b' n o'.record) (hnewly : o.newlyBuilt = o'.newlyBuilt)
    (reason : String) (signalled : Bool) :
    (s.accepted o reason signalled).Counterpart b b' n (s'.accepted o' reason signalled) := by
  obtain ⟨hkept, hmodules⟩ := h.add ht ho
  refine ⟨h.builder, h.decisions, hmodules, h.roots, ?_, h.kinds⟩
  simp only [Session.accepted, hnewly]
  split
  · exact List.rel_append h.pending (.cons hkept .nil)
  · exact h.pending

end Trees

end Session.Counterpart

end ImportClosure
