import ImportClosure.Proofs.Explicit
import ImportClosure.Proofs.Reserved
import ImportClosure.Proofs.Stricter

/-!
# What a profile reaches

A profile is asked behind the rules about what is impossible and behind the plugins, and in front of everything that is
wished in general. So a module is either shielded from every profile (`Policy.Shields`), and the profile makes no
difference for it, or the word of the profile is the decision, whatever the patterns and the general options are
(`profile_reaches`).
-/

namespace ImportClosure

variable {σ : Type}

open Step

namespace Policy

variable {p : Policy} {q : Query}

/-- The first rule speaks about modules with a reserved name only. -/
theorem reserves_of_mainRule {d : Decision} (h : p.mainRule q = some d) : p.Reserves q.name := by
  unfold mainRule at h
  split at h
  next hmain => exact Or.inl (beq_iff_eq.1 hmain)
  · split at h
    next hpackage =>
      simp only [Bool.and_eq_true, Bool.not_eq_true', beq_iff_eq] at hpackage
      obtain ⟨⟨⟨hmode, hbuild⟩, hbase⟩, hin⟩ := hpackage
      obtain ⟨package, hpackage⟩ := Option.isSome_iff_exists.1 hmode
      refine Or.inr ⟨hbuild, package, hpackage, ModuleName.eq_of_components ?_⟩
      rw [FollowOptions.runtimePackage, hpackage] at hin
      obtain ⟨last, hcomponents⟩ := ModuleName.package?_eq_some_iff.1 hin
      obtain rfl : last = ModuleName.main.text := by
        rw [← hbase, ModuleName.basename, hcomponents, List.getLast?_concat, Option.getD_some]
      rw [hcomponents, ModuleName.components_child, Text.fields_of_not_mem (by decide)]
    · cases h

/-- What shields a module from the profile, whatever the profile says. -/
inductive Shields (p : Policy) (q : Query) : Prop where
  /-- It has the name of the entry, or the one that the entry has in its package. -/
  | entry (h : p.Reserves q.name)
  | plugin (h : (p.plugins.encounter q.file q.name q.kind).isSome = true)
  | extension (h : q.kind = .extension)
  | library (hin : p.library.holds q.file = true) (hnot : p.options.followStdlib = false)
  | bytecode (h : p.compilation q.name = .bytecode)

/-- A module is shielded if one of the early rules speaks about it, or if the profile is not asked. -/
theorem shields_iff : p.Shields q ↔ (p.earlyRules q).isSome = true ∨ p.asksProfile q = false := by
  constructor
  · intro h
    cases h with
    | entry h =>
      obtain ⟨reason, hmain⟩ := exists_mainRule h
      exact Or.inl (by simp [earlyRules, hmain])
    | plugin h => exact Or.inl (by simp [earlyRules, pluginRule, h])
    | extension h => exact Or.inl (by simp [earlyRules, extensionRule, h])
    | library hin hnot => exact Or.inr (by simp [asksProfile, hin, hnot])
    | bytecode h => exact Or.inr (by simp [asksProfile, h])
  · rintro (hspoken | hunasked)
    · rw [earlyRules, Option.isSome_or, Option.isSome_or, Bool.or_eq_true, Bool.or_eq_true] at hspoken
      rcases hspoken with hmain | hplugin | hextension
      · obtain ⟨d, hd⟩ := Option.isSome_iff_exists.1 hmain
        exact .entry (reserves_of_mainRule hd)
      · exact .plugin hplugin
      · refine .extension (Decidable.byContradiction fun hkind => ?_)
        simp [extensionRule, hkind] at hextension
    · cases hmode : p.compilation q.name with
      | bytecode => exact .bytecode hmode
      | compiled =>
        simp only [asksProfile, hmode, decide_true, Bool.and_true, Bool.or_eq_false_iff, Bool.not_eq_false'] at hunasked
        exact .library hunasked.1 hunasked.2

instance (p : Policy) (q : Query) : Decidable (p.Shields q) :=
  decidable_of_iff _ shields_iff.symm

/-! ## Other profiles and other wishes -/

/-- A policy with another profile. -/
def withProfile (p : Policy) (f : Profile) : Policy :=
  { p with profile := f }

/-- What is wished about modules in general. -/
structure Wishes where
  followTo : NamePatterns
  nofollowTo : NamePatterns
  followAll : Bool
  followNone : Bool
  /-- The packages of the library that are not followed on their own. -/
  noAuto : ModuleName → Bool

/-- A policy with other wishes. -/
def wishing (p : Policy) (w : Wishes) : Policy :=
  { p with
    options := { p.options with followAll := w.followAll, followNone := w.followNone }
    followTo := w.followTo
    nofollowTo := w.nofollowTo
    library := { p.library with isNoAuto := w.noAuto } }

/-- Neither the profile nor the wishes shield a module, nor does it matter whether the request is explicit. -/
theorem shields_congr (p : Policy) (q : Query) (f : Profile) (w : Wishes) (explicit : Bool) :
    ((p.withProfile f).wishing w).Shields { q with explicit } ↔ p.Shields q := by
  rw [shields_iff, shields_iff]
  exact Iff.rfl

/-- What a profile says about a shielded module makes no difference. -/
theorem Shields.decide_eq (h : p.Shields q) (f g : Profile) : (p.withProfile f).decide q = (p.withProfile g).decide q := by
  rcases shields_iff.1 h with hspoken | hunasked
  · obtain ⟨d, hd⟩ := Option.isSome_iff_exists.1 hspoken
    rw [decide_of_earlyRules (p := p.withProfile f) hd, decide_of_earlyRules (p := p.withProfile g) hd]
  · have hsilent : ∀ f, (p.withProfile f).profileRule q = none := by
      intro f
      rw [profileRule]
      exact if_neg (by rw [← Bool.not_eq_true] at hunasked; exact hunasked)
    simp only [decide, rules, List.findSome?_cons, hsilent]
    rfl

/-- What the profile says about a module that is not shielded is the decision. -/
theorem decide_of_not_shields (h : ¬ p.Shields q) {b : Bool} (hb : p.profile.decide? q.name q.kind = some b) :
    p.decide q = .ofBool b .profile := by
  rw [shields_iff, not_or, Bool.not_eq_true, Option.isSome_eq_false_iff, Option.isNone_iff_eq_none, Bool.not_eq_false] at h
  obtain ⟨hsilent, hasked⟩ := h
  simp only [earlyRules, Option.or_eq_none_iff] at hsilent
  obtain ⟨hmain, hplugin, hextension⟩ := hsilent
  have hprofile : p.profileRule q = some (.ofBool b .profile) := by
    rw [profileRule, hb]
    exact if_pos hasked
  simp only [decide, rules, List.findSome?_cons, hmain, hplugin, hextension, hprofile, Option.getD_some]

/-- The shielded modules are those about which all profiles lead to the same decision. -/
theorem shields_iff_decide_eq :
    p.Shields q ↔ ∀ f g : Profile, (p.withProfile f).decide q = (p.withProfile g).decide q := by
  refine ⟨Shields.decide_eq, fun hsame => Decidable.byContradiction fun h => ?_⟩
  -- a profile that includes the module and one that excludes it
  have hopen : ∀ f, ¬ (p.withProfile f).Shields q := by
    intro f
    rw [shields_iff] at h ⊢
    exact h
  have hin := decide_of_not_shields (hopen { decide? := fun _ _ => some true }) (b := true) rfl
  have hout := decide_of_not_shields (hopen { decide? := fun _ _ => some false }) (b := false) rfl
  cases hin.symm.trans ((hsame _ _).trans hout)

end Policy

/-! ## Answers of sessions -/

namespace Engine

/-- An engine under another policy. -/
def under (e : Engine σ) (p : Policy) : Engine σ :=
  { e with policy := p }

/-- A query is answered with a decision: by the rules, in every fresh session, and after operations of any kind where all
queries with its key are decided alike. -/
structure Answers (e : Engine σ) (q : Query) (d : Decision) : Prop where
  rendered : e.policy.decide q = d
  fresh : ∀ x, (ends (e.decide q) (.fresh x)).1 = .ok d
  after : (∀ q', q'.key = q.key → e.policy.decide q' = e.policy.decide q) →
    ∀ x ops, (ends (e.decide q) (e.after ops (.fresh x))).1 = .ok d

/-- Every query is answered with what the rules say about it. -/
theorem answers_decide (e : Engine σ) (q : Query) : e.Answers q (e.policy.decide q) where
  rendered := rfl
  fresh x := (Recalls.fresh x q).ends_decide
  after halike x ops := by
    have hfresh : e.Remembers (.fresh x) := .of_nil rfl
    exact (Recalls.of_remembers (hfresh.moves (moves_after hfresh ops)) halike).ends_decide

end Engine

/-- A profile reaches the modules that it may reach, and no others. Two engines that differ in their profiles only do the
same in every session when they are asked about a module that is shielded: by its name, if it is the one of the entry or
the one that the entry has in its package, by a plugin that decides, as an extension module, as library code that is not
followed, or as bytecode. About every other module on which a profile has a word, that word is the decision, whatever the
patterns, the options to follow all or nothing and the library's own list say, and whether or not the request is
explicit. -/
theorem profile_reaches (e : Engine σ) (q : Query) :
    (e.policy.Shields q → ∀ f g : Profile,
      let first := e.under (e.policy.withProfile f)
      let second := e.under (e.policy.withProfile g)
      (∀ s, ends (first.decide q) s = ends (second.decide q) s) ∧ ∃ d, first.Answers q d ∧ second.Answers q d) ∧
    (¬ e.policy.Shields q → ∀ (f : Profile) (b : Bool), f.decide? q.name q.kind = some b →
      ∀ (w : Policy.Wishes) (explicit : Bool),
      (e.under ((e.policy.withProfile f).wishing w)).Answers { q with explicit } (.ofBool b .profile)) := by
  constructor
  · intro hshields f g first second
    have hdecide : second.policy.decide q = first.policy.decide q := hshields.decide_eq g f
    refine ⟨fun s => ?_, first.policy.decide q, first.answers_decide q, hdecide ▸ second.answers_decide q⟩
    unfold Engine.decide
    rw [hdecide]
    rfl
  · intro hopen f b hb w explicit
    rw [← Policy.shields_congr e.policy q f w explicit] at hopen
    rw [← Policy.decide_of_not_shields hopen hb]
    exact Engine.answers_decide _ _

/-- An engine that runs a package, with a library that is not followed, a plugin that decides about a module, a pattern of
modules that stay bytecode and one of modules that are never followed. -/
def Engine.profiled : Engine (List BuildRequest) where
  policy := {
    options := { packageMode := some "tool", nofollowTo := ["hot"], bytecodeModules := ["slow.*"] }
    followTo := []
    nofollowTo := (NamePatterns.ofTexts ["hot"]).toOption.getD []
    bytecodeModules := (NamePatterns.ofTexts ["slow.*"]).toOption.getD []
    plugins := ({ decisions := [(⟨"numpy"⟩, .undecided (.stated "left alone"))], compiled := [⟨"slow.path"⟩] } :
      PluginTable).plugins
    library := ({ roots := [⟨"/lib"⟩] } : LibraryRoots).library }
  tree := .empty ⟨"/w"⟩
  builder := .ofTable []

/-- Whatever a profile says, it changes nothing for the main module of the package, for a module that a plugin decides
about, for one of the library and for one that stays bytecode; but a module that is never followed is included if a profile
says so, and so is one that the plugins compile though a pattern takes it. -/
theorem profile_reaches_profiled :
    let e := Engine.profiled
    let asked path name : Query := ⟨⟨⟨path⟩⟩, ⟨name⟩, .source, false⟩
    let f := ({ included := [⟨"hot"⟩, ⟨"slow.path"⟩, ⟨"slow.lane"⟩, ⟨"json"⟩, ⟨"numpy"⟩, ⟨"tool.__main__"⟩] } :
      ProfileData).profile
    let w : Policy.Wishes :=
      ⟨e.policy.followTo, e.policy.nofollowTo, e.policy.options.followAll, e.policy.options.followNone, fun _ => false⟩
    (∀ q ∈ [asked "/w/tool/__main__.py" "tool.__main__", asked "/w/numpy.py" "numpy", asked "/lib/json.py" "json",
        asked "/w/slow/lane.py" "slow.lane"],
      ∀ s, ends ((e.under (e.policy.withProfile f)).decide q) s = ends ((e.under (e.policy.withProfile {})).decide q) s) ∧
    ∀ q ∈ [asked "/w/hot.py" "hot", asked "/w/slow/path.py" "slow.path"],
      (e.under ((e.policy.withProfile f).wishing w)).Answers { q with explicit := true } (.included .profile) := by
  intro e asked f w
  refine ⟨fun q hq => ((profile_reaches e q).1 ?_ f {}).1, fun q hq => (profile_reaches e q).2 ?_ f true ?_ w true⟩
  · revert q
    decide +kernel
  · revert q
    decide +kernel
  · revert q
    decide +kernel

end ImportClosure
