import ImportClosure.Proofs.Graph
import ImportClosure.Proofs.Links
import Mathlib.Logic.Function.Basic
import Mathlib.Logic.Relation

/-!
# What followed links leave in the registry

While links are followed one after the other over a table, what the registry notes between two modules is what the first
included link says among those that have been followed, and whatever comes in is reached by uses (`Wired`). One link is
dealt with first, then the links of a module, then the modules of a queue.
-/

namespace ImportClosure

open Step

namespace Engine

variable {σ : Type}

/-- Whether a link leads to a module with a tag, and the policy includes it. -/
def carries (e : Engine σ) (j : Identity) (tag : UsageTag) (l : Link) : Bool :=
  l.query.identity == j && l.tag == tag && (e.policy.decide l.query).isIncluded

/-- What the first included link to a module with a tag says: the reason of the decision, and the line of the import. -/
def told (e : Engine σ) (j : Identity) (tag : UsageTag) (links : List Link) : List (String × Option SourceRef) :=
  ((links.find? (e.carries j tag)).map fun l => ((e.policy.decide l.query).reason.text, some l.sourceRef)).toList

variable {e : Engine σ} {j : Identity} {tag : UsageTag} {l : Link} {links : List Link}

theorem carries_iff : e.carries j tag l = true ↔
    l.query.identity = j ∧ l.tag = tag ∧ (e.policy.decide l.query).isIncluded = true := by
  simp only [carries, Bool.and_eq_true, beq_iff_eq, and_assoc]

/-- One more link says something if it is the first that leads there. -/
theorem told_concat : e.told j tag (links ++ [l]) =
    if e.carries j tag l = true ∧ e.told j tag links = [] then
      [((e.policy.decide l.query).reason.text, some l.sourceRef)]
    else e.told j tag links := by
  unfold told
  rw [List.find?_append]
  cases links.find? (e.carries j tag) with
  | some first => simp
  | none => cases h : e.carries j tag l <;> simp [h]

/-- Nothing is said if no included link leads there. -/
theorem told_eq_nil_iff : e.told j tag links = [] ↔ ∀ l ∈ links, ¬ e.carries j tag l = true := by
  rw [told, Option.toList_eq_nil_iff, Option.map_eq_none_iff, List.find?_eq_none]

/-- What is said is what the first included link says. -/
theorem exists_of_mem_told {reason : String} {at_ : Option SourceRef} (h : (reason, at_) ∈ e.told j tag links) :
    ∃ l why, links.find? (e.carries j tag) = some l ∧ e.policy.decide l.query = .included why ∧
      reason = why.text ∧ at_ = some l.sourceRef := by
  rw [told, Option.mem_toList, Option.map_eq_some_iff] at h
  obtain ⟨l, hl, heq⟩ := h
  obtain ⟨rfl, rfl⟩ := Prod.mk.inj heq
  obtain ⟨_, _, hincluded⟩ := carries_iff.1 (List.find?_some hl)
  cases hd : e.policy.decide l.query with
  | included why => exact ⟨l, why, hl, hd, rfl, rfl⟩
  | excluded | undecided =>
    rw [hd] at hincluded
    cases hincluded

end Engine

namespace Session

variable {σ : Type}

/-- A module is the entry. -/
def IsEntry (s : Session σ) (i : Identity) : Prop :=
  ∃ m, s.registry.entry = some m ∧ m.identity = i

/-- A module is the entry, or a path led to it. -/
def IsStart (s : Session σ) (i : Identity) : Prop :=
  s.IsEntry i ∨ i ∈ s.obtained

theorem isStart_congr {s s' : Session σ} {i : Identity} (hentry : s'.registry.entry = s.registry.entry)
    (hobtained : s'.obtained = s.obtained) : s'.IsStart i ↔ s.IsStart i := by
  unfold IsStart IsEntry
  rw [hentry, hobtained]

end Session

/-! ## What is asked for over a table -/

section Recursed

variable {e : Engine (List BuildRequest)} {table : ModuleTable} {s s' : Session (List BuildRequest)}
  {r : RecursionRequest} {signalled : Bool} {m : ModuleRecord}

/-- Besides what was kept, the module that is got is kept. -/
theorem Recursed.keeps_iff_of_got (hr : Recursed e r signalled s (.ok (some m)) s') (i : Identity) :
    s'.Keeps i ↔ s.Keeps i ∨ i = m.identity := by
  have hself : s'.Keeps m.identity := Option.isSome_iff_exists.2 ⟨m, hr.find?_eq⟩
  rcases hr.same_or_gains with ⟨hsame, _⟩ | ⟨o, _, _, hg, hgot⟩
  · rw [← hsame.keeps i]
    refine ⟨Or.inl, ?_⟩
    rintro (hi | rfl)
    · exact hi
    · exact hself
  · cases hgot
    exact hg.keeps i

/-- Only what the table can build comes in. -/
theorem Recursed.builds (he : e.IsOver table) (h : ∀ i, s.Keeps i → table.Builds i.name)
    (hr : Recursed e r signalled s (.ok (some m)) s') : table.Builds m.name := by
  have hself : s'.Keeps m.identity := Option.isSome_iff_exists.2 ⟨m, hr.find?_eq⟩
  rcases hr.same_or_gains with ⟨hsame, _⟩ | ⟨o, ho, _, _, hgot⟩
  · exact h m.identity ((hsame.keeps _).1 hself)
  · cases hgot
    obtain ⟨row, hrow, hbuilds, _⟩ := he.exists_row ho s.cache rfl
    exact ⟨row, hrow, hbuilds⟩

end Recursed

/-! ## Following links -/

/-- The links that have been followed for each module, with more of them behind those of one module. -/
def followedToo (followed : Identity → List Link) (i : Identity) (links : List Link) : Identity → List Link :=
  Function.update followed i (followed i ++ links)

@[simp] theorem followedToo_nil (followed : Identity → List Link) (i : Identity) : followedToo followed i [] = followed := by
  simp [followedToo]

theorem followedToo_concat (followed : Identity → List Link) (i : Identity) (links : List Link) (l : Link) :
    followedToo (followedToo followed i links) i [l] = followedToo followed i (links ++ [l]) := by
  simp [followedToo]

/-- What the registry notes is what the links say that have been followed, as far as the table can build what they lead
to; and whatever is kept is reached by uses from the entry or from what a path led to. -/
structure Wired (e : Engine (List BuildRequest)) (table : ModuleTable) (followed : Identity → List Link)
    (s : Session (List BuildRequest)) : Prop where
  remembers : e.Remembers s
  builds : ∀ i, s.Keeps i → table.Builds i.name
  notes : ∀ i j tag, table.Builds j.name → s.registry.notes i j tag = e.told j tag (followed i)
  silent : ∀ i j tag, ¬ table.Builds j.name → s.registry.notes i j tag = []
  targets : ∀ i j, s.registry.Uses i j → s.Keeps j
  chains : ∀ j, s.Keeps j → ∃ i, s.IsStart i ∧ Relation.ReflTransGen s.registry.Uses i j

namespace Wired

variable {e : Engine (List BuildRequest)} {table : ModuleTable} {followed : Identity → List Link}
  {s s' : Session (List BuildRequest)} {m : ModuleRecord} {l : Link}

/-- No use is noted, and only modules come in that a chain may start from. -/
theorem grow (h : Wired e table followed s) (hs' : e.Remembers s') (huses : s'.registry.uses = s.registry.uses)
    (hmono : ∀ i, s.Keeps i → s'.Keeps i) (hstart : ∀ i, s.IsStart i → s'.IsStart i)
    (hnew : ∀ i, s'.Keeps i → s.Keeps i ∨ table.Builds i.name ∧ s'.IsStart i) : Wired e table followed s' := by
  have hu : s'.registry.Uses = s.registry.Uses := by
    unfold Registry.Uses
    rw [huses]
  refine ⟨hs', fun i hi => (hnew i hi).elim (h.builds i) And.left, ?_, ?_, ?_, ?_⟩
  · intro i j tag hj
    rw [Registry.notes_congr huses, h.notes i j tag hj]
  · intro i j tag hj
    rw [Registry.notes_congr huses, h.silent i j tag hj]
  · rw [hu]
    exact fun i j hij => hmono j (h.targets i j hij)
  · rw [hu]
    intro j hj
    rcases hnew j hj with hj | ⟨_, hj⟩
    · obtain ⟨i, hi, hchain⟩ := h.chains j hj
      exact ⟨i, hstart i hi, hchain⟩
    · exact ⟨j, hj, .refl⟩

/-- Nothing that matters here happens. -/
theorem quiet (h : Wired e table followed s) {a : Action} (hm : Move e a s s') (hquiet : a.isQuiet = true)
    (hspares : a.sparesRegistry = true) : Wired e table followed s' := by
  have halike := hm.alike hquiet
  have hregistry := hm.registry_eq hspares
  refine h.grow (h.remembers.move hm) (by rw [hregistry]) (fun i => (halike.same.keeps i).2) (fun i hi => ?_) fun i hi => ?_
  · exact (Session.isStart_congr (by rw [hregistry]) halike.obtained_eq).2 hi
  · exact Or.inl ((halike.same.keeps i).1 hi)

/-- A link is followed that leads to nothing that is built. -/
theorem pass (h : Wired e table followed s) {i : Identity}
    (hno : ∀ j tag, table.Builds j.name → e.carries j tag l = false) : Wired e table (followedToo followed i [l]) s := by
  refine { h with notes := fun k j tag hj => ?_ }
  rw [h.notes k j tag hj]
  by_cases hk : k = i
  · subst hk
    rw [followedToo, Function.update_self, Engine.told_concat, hno j tag hj]
    simp
  · rw [followedToo, Function.update_of_ne hk]

/-- A link is followed to a module that is got, and the use is noted. -/
theorem used (he : e.IsOver table) (h : Wired e table followed s) (hm : s.Keeps m.identity) {reason : Reason}
    {used : ModuleRecord} {s₁ : Session (List BuildRequest)} (hd : e.policy.decide l.query = .included reason)
    (hr : Recursed e (l.request m reason) true s (.ok (some used)) s₁) :
    Wired e table (followedToo followed m.identity [l])
      { s₁ with registry := s₁.registry.addUse used m l.tag reason.text (some l.sourceRef) } := by
  have hid : l.query.identity = used.identity :=
    ((l.asksFor_request m reason).identity_eq.symm).trans (hr.identity_eq he).symm
  have hbuilds : table.Builds used.identity.name := hr.builds he h.builds
  have hcarries : ∀ j tag, e.carries j tag l = true ↔ j = used.identity ∧ tag = l.tag := by
    intro j tag
    rw [Engine.carries_iff, hid, hd]
    constructor
    · rintro ⟨rfl, rfl, _⟩
      exact ⟨rfl, rfl⟩
    · rintro ⟨rfl, rfl⟩
      exact ⟨rfl, rfl, rfl⟩
  generalize hs' : ({ s₁ with registry := s₁.registry.addUse used m l.tag reason.text (some l.sourceRef) } : Session _) = s'
  have hregistry : s'.registry = s.registry.addUse used m l.tag reason.text (some l.sourceRef) := by
    rw [← hs', hr.registry_eq]
  have hkeeps : ∀ i, s'.Keeps i ↔ s.Keeps i ∨ i = used.identity := by
    rw [← hs']
    exact hr.keeps_iff_of_got
  have hobtained : s'.obtained = s.obtained := by
    rw [← hs']
    exact hr.obtained_eq
  have huses : ∀ i j, s'.registry.Uses i j ↔ s.registry.Uses i j ∨ i = m.identity ∧ j = used.identity := by
    intro i j
    rw [hregistry, Registry.uses_addUse_iff]
  refine ⟨?_, ?_, ?_, ?_, ?_, ?_⟩
  · intro k d hkd
    rw [← hs', show ({ s₁ with registry := _ } : Session _).decisions = s.decisions from hr.decisions_eq] at hkd
    exact h.remembers k d hkd
  · intro i hi
    rcases (hkeeps i).1 hi with hi | rfl
    · exact h.builds i hi
    · exact hbuilds
  · intro i j tag hj
    rw [hregistry, Registry.notes_addUse, h.notes i j tag hj]
    by_cases hi : i = m.identity
    · subst hi
      rw [followedToo, Function.update_self, Engine.told_concat, hd]
      simp only [true_and, hcarries, Decision.reason]
    · rw [followedToo, Function.update_of_ne hi, if_neg fun hn => hi hn.1.1]
  · intro i j tag hj
    rw [hregistry, Registry.notes_addUse, h.silent i j tag hj, if_neg]
    rintro ⟨⟨_, rfl, _⟩, _⟩
    exact hj hbuilds
  · intro i j hij
    rw [hkeeps]
    exact ((huses i j).1 hij).imp (h.targets i j) And.right
  · have hreached : ∀ j, s.Keeps j → ∃ i, s'.IsStart i ∧ Relation.ReflTransGen s'.registry.Uses i j := by
      intro j hj
      obtain ⟨i, hi, hchain⟩ := h.chains j hj
      refine ⟨i, ?_, Relation.ReflTransGen.mono (fun i j hu => (huses i j).2 (Or.inl hu)) _ _ hchain⟩
      rwa [Session.isStart_congr (by rw [hregistry, Registry.entry_addUse]) hobtained]
    intro j hj
    rcases (hkeeps j).1 hj with hj | rfl
    · exact hreached j hj
    · -- the user is reached, and the module that is got is one use further
      obtain ⟨i, hi, hchain⟩ := hreached m.identity hm
      exact ⟨i, hi, hchain.tail ((huses _ _).2 (Or.inr ⟨rfl, rfl⟩))⟩

/-- Following a link of a module that is kept. -/
theorem followLink (he : e.IsOver table) (h : Wired e table followed s) (hm : s.Keeps m.identity)
    (hl : LinkFollowed e m l s s') : Wired e table (followedToo followed m.identity [l]) s' ∧ s'.Keeps m.identity := by
  cases hl with
  | spared hd hno hq =>
    refine ⟨(h.quiet hq rfl rfl).pass fun j tag _ => ?_, ((hq.alike rfl).same.keeps _).2 hm⟩
    rw [← Bool.not_eq_true, Engine.carries_iff, he.decide_of_stands hd, hno]
    simp
  | @passedOver reason s₁ _ hd hq hr =>
    have h₁ := h.quiet hq rfl rfl
    have hsame : s₁.Same s' := by
      rcases hr.same_or_gains with ⟨hsame, _⟩ | ⟨_, _, _, _, hgot⟩
      · exact hsame
      · cases hgot
    have h' : Wired e table followed s' := by
      refine h₁.grow (fun k d hkd => h₁.remembers k d (hr.decisions_eq ▸ hkd)) (by rw [hr.registry_eq])
        (fun i => (hsame.keeps i).2) ?_ ?_
      · exact fun i hi => (Session.isStart_congr (by rw [hr.registry_eq]) hr.obtained_eq).2 hi
      · exact fun i hi => Or.inl ((hsame.keeps i).1 hi)
    refine ⟨h'.pass fun j tag hj => ?_, (hsame.keeps _).2 (((hq.alike rfl).same.keeps _).2 hm)⟩
    rw [← Bool.not_eq_true, Engine.carries_iff]
    rintro ⟨rfl, _⟩
    exact hr.not_builds he hj
  | used hd hq hr =>
    have hm₁ := ((hq.alike rfl).same.keeps _).2 hm
    exact ⟨(h.quiet hq rfl rfl).used he hm₁ (he.decide_of_stands hd) hr, (hr.keeps_iff_of_got _).2 (Or.inl hm₁)⟩

/-- Consuming a module that is kept follows its links. -/
theorem consider (he : e.IsOver table) (h : Wired e table followed s) (hm : s.Keeps m.identity)
    {edges : List ImportEdge} (hc : ends (e.consider m edges) s = (.ok (), s')) :
    Wired e table (followedToo followed m.identity (e.links m edges)) s' := by
  have hend : Wired e table (followedToo followed m.identity (e.links m edges)) s' ∧ s'.Keeps m.identity := by
    refine Engine.keeps_of_consider
      (P := fun before s => Wired e table (followedToo followed m.identity before) s ∧ s.Keeps m.identity) ?_ ?_ hc ?_
    · intro before s s' hremark hP
      exact ⟨hP.1.quiet hremark rfl rfl, ((hremark.alike rfl).same.keeps _).2 hP.2⟩
    · intro before l s s' hl hP
      rw [← followedToo_concat]
      exact hP.1.followLink he hP.2 (Engine.linkFollowed_of_ends hP.1.remembers hl)
    · exact ⟨by rwa [followedToo_nil], hm⟩
  exact hend.1

end Wired

/-! ## Consuming the queue -/

namespace Engine

/-- The links that the modules of a queue have under an identity. -/
def linksIn (e : Engine (List BuildRequest)) (ms : List PendingModule) (i : Identity) : List Link :=
  ms.flatMap fun m => if m.record.identity = i then e.links m.record m.uses else []

variable {e : Engine (List BuildRequest)} {ms : List PendingModule} {m : PendingModule} {i : Identity}

theorem linksIn_of_ne (h : ∀ m ∈ ms, m.record.identity ≠ i) : e.linksIn ms i = [] := by
  rw [linksIn, List.flatMap_eq_nil_iff]
  intro m hm
  rw [if_neg (h m hm)]

/-- In a queue without repetition a module has its own links only. -/
theorem linksIn_of_mem (hnodup : (ms.map fun m => m.record.identity).Nodup) (hm : m ∈ ms) :
    e.linksIn ms m.record.identity = e.links m.record m.uses := by
  induction ms with
  | nil => cases hm
  | cons first rest ih =>
    obtain ⟨hfirst, hrest⟩ := List.nodup_cons.1 hnodup
    have hcons : ∀ i, e.linksIn (first :: rest) i =
        (if first.record.identity = i then e.links first.record first.uses else []) ++ e.linksIn rest i :=
      fun i => List.flatMap_cons
    rcases List.mem_cons.1 hm with rfl | hm
    · have hother : ∀ n ∈ rest, n.record.identity ≠ m.record.identity :=
        fun n hn heq => hfirst (List.mem_map.2 ⟨n, hn, heq⟩)
      rw [hcons, if_pos rfl, linksIn_of_ne hother, List.append_nil]
    · have hne : first.record.identity ≠ m.record.identity :=
        fun heq => hfirst (List.mem_map.2 ⟨m, hm, heq.symm⟩)
      rw [hcons, if_neg hne, List.nil_append, ih hrest hm]

end Engine

/-- Consuming modules that are kept follows the links of all of them. -/
theorem Wired.consumeAll {e : Engine (List BuildRequest)} {table : ModuleTable} (he : e.IsOver table)
    {followed : Identity → List Link} {s s' : Session (List BuildRequest)} (h : Wired e table followed s)
    {ms : List PendingModule} (hms : ∀ m ∈ ms, s.Keeps m.record.identity) (hc : ends (ms.forM e.consume) s = (.ok (), s')) :
    Wired e table (fun i => followed i ++ e.linksIn ms i) s' := by
  have hend : Wired e table (fun i => followed i ++ e.linksIn ([] ++ ms) i) s' ∧
      ∀ m ∈ ms, s'.Keeps m.record.identity := by
    refine keeps_of_ends_forM (I := fun before s =>
      Wired e table (fun i => followed i ++ e.linksIn before i) s ∧ ∀ m ∈ ms, s.Keeps m.record.identity)
      ?_ hc ⟨by simpa [Engine.linksIn] using h, hms⟩
    intro before m s s' hm hP hconsume
    have hleads : Step.Leads e _ (e.consider m.record m.uses) s _ := Engine.consider_leads hP.1.remembers
    have hmoves := hleads.1
    rw [show ends (e.consider m.record m.uses) s = _ from hconsume] at hmoves
    refine ⟨?_, fun n hn => hmoves.keeps_mono (hP.2 n hn)⟩
    have hfun : (fun i => followed i ++ e.linksIn (before ++ [m]) i) = followedToo
        (fun i => followed i ++ e.linksIn before i) m.record.identity (e.links m.record m.uses) := by
      funext i
      by_cases hi : i = m.record.identity
      · subst hi
        simp [followedToo, Engine.linksIn, List.flatMap_append]
      · simp [followedToo, Engine.linksIn, List.flatMap_append, Function.update_of_ne hi, Ne.symm hi]
    rw [hfun]
    exact hP.1.consider he (hP.2 m hm) hconsume
  simpa using hend.1

end ImportClosure
