import ImportClosure.Policy.Profile
import ImportClosure.Proofs.NamePatterns

/-!
# Stricter policies

A policy is stricter than another if it follows fewer names, refuses more of them, includes less for a profile, and does
not follow all imports where the other one does not; all else is the same. What it includes the other one includes as well
(`Policy.Stricter.isIncluded`), although an earlier rule may hide a later one.
-/

namespace ImportClosure

namespace NamePatterns

variable {ps qs : NamePatterns} {n : ModuleName}

/-- More patterns take more names. -/
theorem takes_mono (h : ps ⊆ qs) (ht : ps.takes n = true) : qs.takes n = true := by
  obtain ⟨p, hp, hhit⟩ := takes_iff.1 ht
  exact takes_iff.2 ⟨p, h hp, hhit⟩

/-- More texts are read as more patterns. -/
theorem subset_of_ofTexts {texts texts' : List String} (h : texts ⊆ texts') (hps : ofTexts texts = .ok ps)
    (hqs : ofTexts texts' = .ok qs) : ps ⊆ qs := by
  intro p hp
  obtain ⟨text, htext, hread⟩ := exists_of_mem_mapM hps hp
  obtain ⟨q, hq, hread'⟩ := exists_mem_of_mapM hqs (h htext)
  obtain rfl : p = q := Except.ok.inj (hread.symm.trans hread')
  exact hq

end NamePatterns

/-- A profile that includes no more and excludes no less than another. -/
structure Profile.Stricter (strict lenient : Profile) : Prop where
  included : ∀ n kind, strict.decide? n kind = some true → lenient.decide? n kind = some true
  excluded : ∀ n kind, lenient.decide? n kind = some false → strict.decide? n kind = some false

namespace ProfileData

variable {strict lenient : ProfileData} {n : ModuleName} {kind : ModuleKind}

/-- What is excluded are the names that are listed so. -/
theorem excludes_iff {p : ProfileData} : p.profile.decide? n kind = some false ↔ n ∈ p.excluded := by
  by_cases hout : n ∈ p.excluded <;> by_cases hin : n ∈ p.included <;> simp [profile, hout, hin]

/-- What is included are the names that are listed so, unless they are excluded as well. -/
theorem includes_iff {p : ProfileData} : p.profile.decide? n kind = some true ↔ n ∈ p.included ∧ n ∉ p.excluded := by
  by_cases hout : n ∈ p.excluded <;> by_cases hin : n ∈ p.included <;> simp [profile, hout, hin]

/-- Fewer included names and more excluded ones are stricter. -/
theorem stricter (hincluded : strict.included ⊆ lenient.included) (hexcluded : lenient.excluded ⊆ strict.excluded) :
    strict.profile.Stricter lenient.profile where
  included _ _ hd := by
    obtain ⟨hin, hout⟩ := includes_iff.1 hd
    exact includes_iff.2 ⟨hincluded hin, fun hmem => hout (hexcluded hmem)⟩
  excluded _ _ hd := excludes_iff.2 (hexcluded (excludes_iff.1 hd))

end ProfileData

namespace Policy

/-- A policy that differs from another at most by what makes it stricter. -/
structure Stricter (strict lenient : Policy) : Prop where
  options : { strict.options with
    followAll := lenient.options.followAll, followTo := lenient.options.followTo,
    nofollowTo := lenient.options.nofollowTo } = lenient.options
  followAll : strict.options.followAll = true → lenient.options.followAll = true
  followTo : strict.followTo ⊆ lenient.followTo
  nofollowTo : lenient.nofollowTo ⊆ strict.nofollowTo
  bytecodeModules : strict.bytecodeModules = lenient.bytecodeModules
  plugins : strict.plugins = lenient.plugins
  library : strict.library = lenient.library
  profile : strict.profile.Stricter lenient.profile

/-- A policy holds its options, and the patterns that are read from them. -/
theorem eq_of_ofOptions {o : FollowOptions} {p : Policy} (h : ofOptions o = .ok p) :
    ∃ followTo nofollowTo bytecodeModules, NamePatterns.ofTexts o.followTo = .ok followTo ∧
      NamePatterns.ofTexts o.nofollowTo = .ok nofollowTo ∧ NamePatterns.ofTexts o.bytecodeModules = .ok bytecodeModules ∧
      p = { options := o, followTo, nofollowTo, bytecodeModules } := by
  unfold ofOptions at h
  rcases hv : o.validate with err | _ <;> simp only [hv, bind, Except.bind] at h
  · cases h
  rcases hf : NamePatterns.ofTexts o.followTo with err | followTo <;> simp only [hf] at h
  · cases h
  rcases hn : NamePatterns.ofTexts o.nofollowTo with err | nofollowTo <;> simp only [hn] at h
  · cases h
  rcases hb : NamePatterns.ofTexts o.bytecodeModules with err | bytecodeModules <;> simp only [hb] at h
  · cases h
  cases h
  exact ⟨followTo, nofollowTo, bytecodeModules, rfl, rfl, rfl, rfl⟩

/-- A policy is stricter if it is read from stricter options and has a stricter profile. -/
theorem Stricter.of_ofOptions {o o' : FollowOptions} {p p' : Policy} (hp : ofOptions o = .ok p) (hp' : ofOptions o' = .ok p')
    (hrest : { o with followAll := o'.followAll, followTo := o'.followTo, nofollowTo := o'.nofollowTo } = o')
    (hall : o.followAll = true → o'.followAll = true) (hto : o.followTo ⊆ o'.followTo) (hno : o'.nofollowTo ⊆ o.nofollowTo)
    {plugins : Plugins} {library : Library} {profile profile' : Profile} (hprofile : profile.Stricter profile') :
    Stricter { p with plugins, library, profile } { p' with plugins, library, profile := profile' } := by
  obtain ⟨followTo, nofollowTo, bytecodeModules, hf, hn, hb, rfl⟩ := eq_of_ofOptions hp
  obtain ⟨followTo', nofollowTo', bytecodeModules', hf', hn', hb', rfl⟩ := eq_of_ofOptions hp'
  have hbytecode : o.bytecodeModules = o'.bytecodeModules := by rw [← hrest]
  rw [hbytecode] at hb
  exact {
    options := hrest
    followAll := hall
    followTo := NamePatterns.subset_of_ofTexts hto hf hf'
    nofollowTo := NamePatterns.subset_of_ofTexts hno hn' hn
    bytecodeModules := Except.ok.inj (hb.symm.trans hb')
    plugins := rfl
    library := rfl
    profile := hprofile }

/-! ## What includes a module -/

/-- Whether the profile is asked about a module. -/
def asksProfile (p : Policy) (q : Query) : Bool :=
  (!p.library.holds q.file || p.options.followStdlib) && p.compilation q.name = .compiled

/-- What the profile says about a module that it is asked about. -/
def profileSays (p : Policy) (q : Query) : Option Bool :=
  if p.asksProfile q then p.profile.decide? q.name q.kind else none

/-- The rules behind those of the patterns include a module. -/
def Follows (p : Policy) (q : Query) : Prop :=
  q.explicit = true ∨ (p.library.holds q.file = true ∧ p.options.followStdlib = true) ∨
    (p.options.followAll = true ∧ (p.library.holds q.file = false ∨ p.library.isNoAuto q.name = true))

/-- The rules up to the one about extension modules, in one. -/
def earlyRules (p : Policy) (q : Query) : Option Decision :=
  (p.mainRule q).or ((p.pluginRule q).or (p.extensionRule q))

/-- The early rules decide if one of them speaks. -/
theorem decide_of_earlyRules {p : Policy} {q : Query} {d : Decision} (h : p.earlyRules q = some d) : p.decide q = d := by
  unfold earlyRules at h
  simp only [decide, rules, List.findSome?_cons]
  cases hm : p.mainRule q with
  | some d' => simp_all
  | none =>
    cases hp : p.pluginRule q with
    | some d' => simp_all
    | none => simp_all

/-- Behind the early rules a module is included if the profile says so, or if it says nothing, no pattern refuses the name,
and a pattern or one of the later rules speaks. -/
theorem isIncluded_iff_of_earlyRules {p : Policy} {q : Query} (h : p.earlyRules q = none) :
    (p.decide q).isIncluded = true ↔ p.profileSays q = some true ∨
      p.profileSays q = none ∧ p.nofollowTo.takes q.name = false ∧ (p.followTo.takes q.name = true ∨ p.Follows q) := by
  simp only [earlyRules, Option.or_eq_none_iff] at h
  obtain ⟨hm, hp, hx⟩ := h
  have hprofile : p.profileRule q = (p.profileSays q).map fun follow => .ofBool follow .profile := by
    unfold profileRule profileSays asksProfile
    split <;> rfl
  simp only [decide, rules, List.findSome?_cons, hm, hp, hx, hprofile]
  cases p.profileSays q with
  | some follow => cases follow <;> simp [Decision.ofBool, Decision.isIncluded]
  | none =>
    unfold neverFollowRule alwaysFollowRule NamePatterns.takes
    cases p.nofollowTo.firstHit q.name with
    | some hit => simp [Decision.isIncluded]
    | none =>
      cases p.followTo.firstHit q.name with
      | some hit => simp [Decision.isIncluded]
      | none =>
        unfold explicitRule stdlibRule followAllRule fallback Follows
        cases q.explicit <;> cases p.library.holds q.file <;> cases p.options.followStdlib <;>
          cases p.options.followAll <;> cases p.library.isNoAuto q.name <;> simp [Decision.isIncluded]

namespace Stricter

variable {strict lenient : Policy} {q : Query}

/-- The early rules are the same. -/
theorem earlyRules_eq (h : strict.Stricter lenient) : strict.earlyRules q = lenient.earlyRules q := by
  have hmain : strict.mainRule q = lenient.mainRule q := by
    unfold mainRule FollowOptions.inPackageMode FollowOptions.runtimePackage
    rw [← h.options]
  have hplugin : strict.pluginRule q = lenient.pluginRule q := by rw [pluginRule, h.plugins, pluginRule]
  have hextension : strict.extensionRule q = lenient.extensionRule q := by
    unfold extensionRule
    rw [← h.options]
  rw [earlyRules, hmain, hplugin, hextension, earlyRules]

/-- Both profiles are asked about the same modules. -/
theorem asksProfile_eq (h : strict.Stricter lenient) : strict.asksProfile q = lenient.asksProfile q := by
  unfold asksProfile compilation
  rw [← h.options, h.library, h.plugins, h.bytecodeModules]

/-- What the later rules of a stricter policy include those of the other one include too. -/
theorem follows (h : strict.Stricter lenient) (hf : strict.Follows q) : lenient.Follows q := by
  have hstdlib : strict.options.followStdlib = lenient.options.followStdlib := by rw [← h.options]
  unfold Follows at hf ⊢
  rw [← h.library, ← hstdlib]
  rcases hf with hexplicit | hlibrary | ⟨hall, hrest⟩
  · exact Or.inl hexplicit
  · exact Or.inr (Or.inl hlibrary)
  · exact Or.inr (Or.inr ⟨h.followAll hall, hrest⟩)

/-- What a stricter policy includes the other one includes too. -/
theorem isIncluded (h : strict.Stricter lenient) (hd : (strict.decide q).isIncluded = true) :
    (lenient.decide q).isIncluded = true := by
  cases hearly : strict.earlyRules q with
  | some d =>
    rw [decide_of_earlyRules hearly] at hd
    rwa [decide_of_earlyRules (h.earlyRules_eq ▸ hearly)]
  | none =>
    rw [isIncluded_iff_of_earlyRules hearly] at hd
    rw [isIncluded_iff_of_earlyRules (h.earlyRules_eq ▸ hearly)]
    simp only [profileSays, ← h.asksProfile_eq (q := q)] at hd ⊢
    rcases hd with hword | ⟨hword, hrefused, hfollowed⟩
    · -- the profile includes the module, and the other profile does as well
      left
      split at hword
      next hasked => simpa [hasked] using h.profile.included _ _ hword
      next => cases hword
    · -- the other profile may speak where this one does not, but then it includes the module
      have hrest : lenient.nofollowTo.takes q.name = false ∧ (lenient.followTo.takes q.name = true ∨ lenient.Follows q) := by
        constructor
        · rw [← Bool.not_eq_true] at hrefused ⊢
          exact fun ht => hrefused (NamePatterns.takes_mono h.nofollowTo ht)
        · exact hfollowed.imp (NamePatterns.takes_mono h.followTo) h.follows
      split at hword
      next hasked =>
        simp only [hasked, if_true]
        cases hl : lenient.profile.decide? q.name q.kind with
        | none => exact Or.inr ⟨rfl, hrest⟩
        | some follow =>
          cases follow with
          | true => exact Or.inl rfl
          | false =>
            rw [h.profile.excluded _ _ hl] at hword
            cases hword
      next hasked => exact Or.inr ⟨by simp [hasked], hrest⟩

end Stricter

end Policy

end ImportClosure
