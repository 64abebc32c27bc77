import ImportClosure.Proofs.Graph
import ImportClosure.Proofs.Origins
import ImportClosure.Proofs.Stricter

/-!
# Names that are never followed

A module other than an extension module is kept under a name that is not to be followed, or below one, only if it is the
entry (`not_takes_of_kept`). The rule stands above all rules that include such a module, other than those of a plugin and
of a profile, and whatever comes in without being the entry follows a decision to include it.
-/

namespace ImportClosure

variable {σ : Type}

open Step

namespace Policy

/-- The patterns of a policy are read from its options. -/
theorem nofollowTo_of_ofOptions {o : FollowOptions} {p : Policy} (h : ofOptions o = .ok p) :
    NamePatterns.ofTexts o.nofollowTo = .ok p.nofollowTo ∧ p.profile = {} := by
  obtain ⟨_, nofollowTo, _, _, hn, _, rfl⟩ := eq_of_ofOptions h
  exact ⟨hn, rfl⟩

/-- The first rule never includes a module. -/
theorem isIncluded_of_mainRule {p : Policy} {q : Query} {d : Decision} (h : p.mainRule q = some d) :
    d.isIncluded = false := by
  unfold mainRule at h
  split at h
  · cases h
    rfl
  · split at h
    · cases h
      rfl
    · cases h

/-- Without a word of the plugins or of a profile, what is included is an extension module or has a name that no pattern
forbids to follow. -/
theorem takes_eq_false_of_included {p : Policy} {q : Query} {reason : Reason}
    (hplugins : p.plugins.encounter q.file q.name q.kind = none) (hprofile : p.profile = {}) (hkind : q.kind ≠ .extension)
    (h : p.decide q = .included reason) : p.nofollowTo.takes q.name = false := by
  rw [← Bool.not_eq_true]
  intro htakes
  obtain ⟨hit, hhit⟩ := Option.isSome_iff_exists.1 htakes
  cases hmain : p.mainRule q with
  | some d =>
    have hd : p.decide q = d := by simp [decide, rules, hmain]
    have hno := isIncluded_of_mainRule hmain
    rw [← hd, h] at hno
    cases hno
  | none =>
    have hd : p.decide q = .excluded (.neverFollow q.name hit) := by
      simp [decide, rules, hmain, pluginRule, hplugins, extensionRule, hkind, profileRule, hprofile,
        neverFollowRule, hhit]
    rw [h] at hd
    cases hd

end Policy

/-- What comes in as the entry runs as the main module. -/
theorem Engine.Enters.name_eq {e : Engine σ} {ops : List Operation} {s : Session σ} {m : ModuleRecord}
    (hbuilder : e.builder.AnswersAsked) (h : e.Enters ops s m) : m.name = .main := by
  obtain ⟨before, path, behind, s', _, hr, _⟩ := h
  exact name_of_addEntry hbuilder.namesAsked hr

/-- A module that is kept and is no extension module is the entry, or neither its name nor a package around it is taken
by a pattern of names that are not to be followed: whatever the builder, the library and the options are, if no plugin
decides and there is no profile, after operations of any kind that ask for no module past the policy. -/
theorem not_takes_of_kept {e : Engine σ} {o : FollowOptions} {p : Policy} {plugins : Plugins} {library : Library}
    (hp : Policy.ofOptions o = .ok p) (he : e.policy = { p with plugins, library })
    (hplugins : ∀ file name kind, plugins.encounter file name kind = none) (hbuilder : e.builder.AnswersAsked)
    {ops : List Operation} (hops : ∀ op ∈ ops, op.isRequest = false) {x : σ} {m : ModuleRecord}
    (hm : m ∈ (e.after ops (.fresh x)).cache.modules) (hkind : m.kind ≠ .extension)
    (hentry : ¬ e.Enters ops (.fresh x) m) {n : ModuleName} (hn : n = m.name ∨ n ∈ m.name.parentPackages) :
    e.policy.nofollowTo.takes n = false := by
  obtain ⟨htexts, hprofile⟩ := Policy.nofollowTo_of_ofOptions hp
  have hname : p.nofollowTo.takes m.name = false := by
    obtain ⟨r, ⟨_, y, out, hout, rfl⟩, hmade⟩ := (Engine.exists_origin_of_fresh hm).resolve_left hentry
    obtain ⟨hrname, hrkind⟩ := hbuilder _ _ _ hout
    rcases hmade with ⟨signalled, hmem⟩ | ⟨q, reason, ⟨hqname, _, hqkind⟩, q', hkey, hd⟩
    · exact nomatch hops _ hmem
    -- the decision was made about a query of the same name and kind
    have hq'name : q'.name = out.record.name :=
      (congrArg QueryKey.name hkey).trans (hqname.symm.trans hrname.symm)
    have hq'kind : q'.kind ≠ .extension := by
      rw [show q'.kind = out.record.kind from (congrArg QueryKey.kind hkey).trans (hqkind.symm.trans hrkind.symm)]
      exact hkind
    rw [he] at hd
    rw [← hq'name]
    exact Policy.takes_eq_false_of_included (p := { p with plugins, library }) (hplugins _ _ _) hprofile hq'kind hd
  rw [he, ← Bool.not_eq_true]
  intro htakes
  rcases hn with rfl | hn
  · rw [hname] at htakes
    cases htakes
  · rw [NamePatterns.takes_of_mem_parentPackages htexts hn htakes] at hname
    cases hname

namespace Engine

/-- Options under which all imports are followed but those of vendored modules. -/
def vendorOptions : FollowOptions :=
  { followAll := true, nofollowTo := ["vendor"] }

/-- An engine with these options, over an entry that imports a vendored module and a tree with another one. -/
def vendored : Engine (List BuildRequest) where
  policy := {
    options := vendorOptions
    followTo := []
    nofollowTo := (NamePatterns.ofTexts ["vendor"]).toOption.getD []
    bytecodeModules := [] }
  tree := (FileTree.empty ⟨"/w"⟩).add ["w", "vendor.py"] (.text "")
  builder := .ofTable [
    (.main, { uses := [ModuleTable.edgeTo "app", ModuleTable.edgeTo "vendor.codec"] }),
    (⟨"app"⟩, {}),
    (⟨"vendor.codec"⟩, {}),
    (⟨"vendor"⟩, {})]

end Engine

/-- What is kept beside the entry is not vendored. -/
theorem not_takes_of_kept_vendored :
    let ops : List Operation := [.addEntry ⟨"main.py"⟩, .walk (.path ⟨"/w/vendor.py"⟩ none), .run 3]
    let m : ModuleRecord := { name := ⟨"app"⟩, file := ⟨⟨"/w/app.py"⟩⟩, kind := .source }
    m ∈ (Engine.vendored.after ops (.fresh [])).cache.modules ∧ ¬ Engine.vendored.Enters ops (.fresh []) m ∧
      Engine.vendored.policy.nofollowTo.takes m.name = false := by
  intro ops m
  have hm : m ∈ (Engine.vendored.after ops (.fresh [])).cache.modules := by decide +kernel
  have hbuilder : Engine.vendored.builder.AnswersAsked := Builder.answersAsked_ofTable _
  have hentry : ¬ Engine.vendored.Enters ops (.fresh []) m := fun h => absurd (h.name_eq hbuilder) (by decide)
  have hp : Policy.ofOptions Engine.vendorOptions = .ok Engine.vendored.policy := rfl
  have he : Engine.vendored.policy = { Engine.vendored.policy with plugins := {}, library := {} } := rfl
  have hplugins : ∀ file name kind, ({} : Plugins).encounter file name kind = none := fun _ _ _ => rfl
  exact ⟨hm, hentry, not_takes_of_kept hp he hplugins hbuilder (by decide) hm (by decide) hentry (Or.inl rfl)⟩

end ImportClosure
