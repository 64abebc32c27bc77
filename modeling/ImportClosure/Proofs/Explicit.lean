import ImportClosure.Proofs.Remembered

/-!
# Explicit requests

A module that is asked for by its path is decided about by the same rules as an import of it, but for one rule in the
middle. The rules in front of that rule do not see the difference, and no rule behind it excludes a module: so an explicit
request can add a module and changes nothing else (`explicit_only_adds`). The two decisions are remembered apart.
-/

namespace ImportClosure

variable {σ : Type}

open Step

/-! ## The rules on both sides -/

namespace Policy

variable {p : Policy} {q : Query}

/-- The rules in front of the one for explicit requests. -/
def firstRules (p : Policy) : List (Query → Option Decision) :=
  [p.mainRule, p.pluginRule, p.extensionRule, p.profileRule, p.neverFollowRule, p.alwaysFollowRule]

/-- The rules behind the one for explicit requests. -/
def lastRules (p : Policy) : List (Query → Option Decision) :=
  [p.stdlibRule, p.followAllRule]

/-- The rules of a policy are those in front of the explicit request, that one, and those behind it. -/
theorem rules_eq (p : Policy) : p.rules = p.firstRules ++ explicitRule :: p.lastRules :=
  rfl

/-- What the first rules say about a module. -/
def firstWord (p : Policy) (q : Query) : Option Decision :=
  p.firstRules.findSome? fun rule => rule q

/-- What the last rules say about a module. -/
def lastWord (p : Policy) (q : Query) : Decision :=
  (p.lastRules.findSome? fun rule => rule q).getD p.fallback

/-- The first rules do not ask whether a request is explicit. -/
theorem firstWord_congr (p : Policy) (q : Query) (explicit : Bool) :
    p.firstWord { q with explicit } = p.firstWord q :=
  rfl

/-- A word of the first rules decides. -/
theorem decide_of_firstWord {d : Decision} (h : p.firstWord q = some d) : p.decide q = d := by
  rw [firstWord] at h
  rw [decide, rules_eq, List.findSome?_append, h]
  rfl

/-- Where the first rules are silent an explicit request is granted, and any other is left to the last rules. -/
theorem decide_of_silent (h : p.firstWord q = none) :
    p.decide q = if q.explicit then .included .explicitPath else p.lastWord q := by
  rw [firstWord] at h
  rw [decide, rules_eq, List.findSome?_append, h, Option.none_or, List.findSome?_cons, explicitRule]
  cases q.explicit <;> rfl

/-- Where the first rules are silent, so is each of them. -/
theorem silent_of_firstWord (h : p.firstWord q = none) : ∀ rule ∈ p.firstRules, rule q = none :=
  List.findSome?_eq_none_iff.1 h

/-- The last rules exclude nothing. -/
theorem isExcluded_lastWord (p : Policy) (q : Query) : (p.lastWord q).isExcluded = false := by
  simp only [lastWord, lastRules, List.findSome?_cons, List.findSome?_nil, stdlibRule, followAllRule, fallback]
  grind [Decision.isExcluded]

/-! ## What an explicit request changes -/

/-- A decision about an explicit request differs from the one about an import of the same module at most by including it,
and only if no rule in front has spoken: not the plugins, nor the profile, nor a pattern, nor the rule about extension
modules. -/
structure OnlyAdds (p : Policy) (q : Query) (implicit explicit : Decision) : Prop where
  excluded_iff : explicit.isExcluded = true ↔ implicit.isExcluded = true
  eq_of_excluded : explicit.isExcluded = true → explicit = implicit
  included : implicit.isIncluded = true → explicit.isIncluded = true
  reason_of_ne : explicit ≠ implicit → explicit = .included .explicitPath
  silent_of_ne : explicit ≠ implicit → p.pluginRule q = none ∧ p.profileRule q = none ∧ p.neverFollowRule q = none ∧
    p.alwaysFollowRule q = none
  kind_of_ne : explicit ≠ implicit → q.kind ≠ .extension

theorem OnlyAdds.refl (p : Policy) (q : Query) (d : Decision) : p.OnlyAdds q d d where
  excluded_iff := Iff.rfl
  eq_of_excluded _ := rfl
  included h := h
  reason_of_ne h := absurd rfl h
  silent_of_ne h := absurd rfl h
  kind_of_ne h := absurd rfl h

/-- Where the first rules are silent an explicit request adds to every decision that excludes nothing. -/
theorem OnlyAdds.of_silent (h : p.firstWord q = none) {d : Decision} (hd : d.isExcluded = false) :
    p.OnlyAdds q d (.included .explicitPath) := by
  have hsilent := silent_of_firstWord h
  have hext : p.extensionRule q = none := hsilent _ (by simp [firstRules])
  exact {
    excluded_iff := by rw [hd]; exact Iff.rfl
    eq_of_excluded := fun h => nomatch h
    included := fun _ => rfl
    reason_of_ne := fun _ => rfl
    silent_of_ne := fun _ => ⟨hsilent _ (by simp [firstRules]), hsilent _ (by simp [firstRules]),
      hsilent _ (by simp [firstRules]), hsilent _ (by simp [firstRules])⟩
    kind_of_ne := fun _ hkind => by simp [extensionRule, hkind] at hext }

/-- By the rules an explicit request only adds. -/
theorem onlyAdds_decide (p : Policy) (file : ModuleFile) (name : ModuleName) (kind : ModuleKind) :
    p.OnlyAdds ⟨file, name, kind, false⟩ (p.decide ⟨file, name, kind, false⟩) (p.decide ⟨file, name, kind, true⟩) := by
  have hsame := p.firstWord_congr ⟨file, name, kind, false⟩ true
  cases hword : p.firstWord ⟨file, name, kind, false⟩ with
  | some d =>
    rw [decide_of_firstWord hword, decide_of_firstWord (hsame.trans hword)]
    exact .refl p _ d
  | none =>
    rw [decide_of_silent hword, decide_of_silent (hsame.trans hword)]
    exact .of_silent hword (p.isExcluded_lastWord _)

end Policy

/-! ## What the session remembers -/

namespace Engine

variable {e : Engine σ} {s : Session σ} {q q' : Query}

/-- All that a session remembers about a query is what the rules say about it. -/
def Recalls (e : Engine σ) (s : Session σ) (q : Query) : Prop :=
  ∀ d, s.decisions.lookup q.key = some d → d = e.policy.decide q

/-- A fresh session remembers nothing. -/
theorem Recalls.fresh (x : σ) (q : Query) : e.Recalls (.fresh x) q :=
  fun _ h => nomatch h

/-- A session remembers about a query what the rules say, if they say the same about every query with its key. -/
theorem Recalls.of_remembers (hs : e.Remembers s)
    (halike : ∀ q', q'.key = q.key → e.policy.decide q' = e.policy.decide q) : e.Recalls s q := by
  intro d hd
  obtain ⟨q', hkey, rfl⟩ := stands_of_lookup hs hd
  exact halike q' hkey

/-- The session answers as the rules do. -/
theorem Recalls.ends_decide (h : e.Recalls s q) : (ends (e.decide q) s).1 = .ok (e.policy.decide q) := by
  rcases e.ends_decide q s with ⟨d, hd, hq⟩ | ⟨_, _, hq⟩
  · rw [hq, h d hd]
  · rw [hq]

/-- An answer to a query changes nothing about another query, unless both have one key and are not decided alike. -/
theorem Recalls.next (h : e.Recalls s q) (hkey : q'.key = q.key → q' = q) : e.Recalls (e.next s (.decide q')) q := by
  have hnext : e.next s (.decide q') = (ends (e.decide q') s).2 := snd_ends_drop _ s
  rw [hnext]
  rcases e.ends_decide q' s with ⟨_, _, hq⟩ | ⟨_, _, hq⟩ <;> rw [hq]
  · exact h
  intro d hd
  rw [List.lookup_cons] at hd
  split at hd
  next hk =>
    obtain rfl := hkey (beq_iff_eq.1 hk).symm
    exact (Option.some.inj hd).symm
  · exact h d hd

end Engine

/-- An explicit request can only add: whatever the options, the plugins, the profile and the library are, the decision
about an explicit request for a module excludes it exactly if the decision about an import of it does, for the same reason,
and includes it if that one does; and where the two differ it includes the module as one that lies at an explicit path, no
plugin, profile or pattern has spoken, and the module is no extension module. The two decisions are those of the session:
in a session that was asked for nothing else, in whatever order and however often they are asked for, and after operations
of any kind where the module is decided alike under every spelling of its file. -/
theorem explicit_only_adds (e : Engine σ) (file : ModuleFile) (name : ModuleName) (kind : ModuleKind) :
    let asked explicit : Query := ⟨file, name, kind, explicit⟩
    e.policy.OnlyAdds (asked false) (e.policy.decide (asked false)) (e.policy.decide (asked true)) ∧
      (∀ (x : σ) (before : List Bool) (explicit : Bool),
        (ends (e.decide (asked explicit)) (e.after (before.map fun b => .decide (asked b)) (.fresh x))).1 =
          .ok (e.policy.decide (asked explicit))) ∧
      ∀ (x : σ) (ops : List Operation) (explicit : Bool),
        (∀ q, q.key = (asked explicit).key → e.policy.decide q = e.policy.decide (asked explicit)) →
          (ends (e.decide (asked explicit)) (e.after ops (.fresh x))).1 = .ok (e.policy.decide (asked explicit)) := by
  intro asked
  refine ⟨e.policy.onlyAdds_decide file name kind, fun x before explicit => ?_, fun x ops explicit halike => ?_⟩
  · -- the two queries have different keys, so the answers to one leave the other alone
    have hrecalls : ∀ (before : List Bool) (s : Session σ), e.Recalls s (asked explicit) →
        e.Recalls (e.after (before.map fun b => .decide (asked b)) s) (asked explicit) := by
      intro before
      induction before with
      | nil => exact fun s hs => hs
      | cons b before ih =>
        refine fun s hs => ih _ (hs.next fun hkey => ?_)
        rw [show b = explicit from congrArg QueryKey.explicit hkey]
    exact (hrecalls before _ (.fresh x _)).ends_decide
  · have hfresh : e.Remembers (.fresh x) := .of_nil rfl
    exact (Engine.Recalls.of_remembers (hfresh.moves (Engine.moves_after hfresh ops)) halike).ends_decide

/-- Where only the library is followed, a module outside of it is left undecided for an import and included when it is asked
for by its path, also behind an entry that cannot be built; a module of the library is included either way. -/
theorem explicit_only_adds_outsideLibrary :
    let e := libraryFollowed
    let ops : List Operation := [.addEntry ⟨"main.py"⟩, .decide (libraryQuery ⟨"/lib/json/__init__.py"⟩)]
    let answer path name explicit := (ends (e.decide ⟨⟨path⟩, name, .source, explicit⟩) (e.after ops (.fresh []))).1
    answer ⟨"/w/plug.py"⟩ ⟨"plug"⟩ false = .ok (.undecided .byDefault) ∧
      answer ⟨"/w/plug.py"⟩ ⟨"plug"⟩ true = .ok (.included .explicitPath) ∧
      answer ⟨"/lib/json"⟩ ⟨"json"⟩ false = .ok (.included .followStdlib) ∧
      answer ⟨"/lib/json"⟩ ⟨"json"⟩ true = .ok (.included .explicitPath) := by
  intro e ops answer
  have halike : ∀ q q' : Query, q.key = q'.key → e.policy.decide q = e.policy.decide q' :=
    fun q q' => Policy.decide_congr (LibraryRoots.ignoresSpelling (by decide)) fun _ _ _ _ => rfl
  have hanswer : ∀ path name explicit,
      answer path name explicit = .ok (e.policy.decide ⟨⟨path⟩, name, .source, explicit⟩) :=
    fun path name explicit => (explicit_only_adds e ⟨path⟩ name .source).2.2 [] ops explicit fun q => halike q _
  rw [hanswer, hanswer, hanswer, hanswer]
  exact ⟨congrArg _ (by decide +kernel), congrArg _ (by decide +kernel), congrArg _ (by decide +kernel),
    congrArg _ (by decide +kernel)⟩

end ImportClosure
