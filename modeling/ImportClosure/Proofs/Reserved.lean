import ImportClosure.Proofs.Graph
import ImportClosure.Proofs.Origins
import ImportClosure.Proofs.Resolved
import ImportClosure.Proofs.Registry

/-!
# Names that are reserved for the entry

The entry runs as the main module, and if it is the main module of a package it would have another name there. A policy
includes nothing under either name, whatever its plugins say (`Engine.not_reserves_of_stands`). So the entry is the only
main module that comes in, no use leads to it, and nothing comes in under the name that it has in its package
(`entry_not_followed_twice`).
-/

namespace ImportClosure

variable {σ : Type}

open Step

/-! ## Names in packages -/

namespace ModuleName

variable {package : ModuleName} {name : String}

/-- A name without a dot is the last component of the name that it has in a package. -/
theorem basename_child (h : '.' ∉ name.toList) : (package.child name).basename = name := by
  simp [basename, components_child, Text.fields_of_not_mem h]

/-- The main module is in no package. -/
theorem main_ne_child : main ≠ package.child main.text := by
  intro h
  have hpackage := congrArg ModuleName.package? h
  rw [package?_child (by decide)] at hpackage
  cases hpackage

end ModuleName

/-! ## Decisions -/

/-- A policy reserves a name for the entry: the one that it runs under, and in package mode, unless a module is built, the
one that it has in its package. -/
def Policy.Reserves (p : Policy) (n : ModuleName) : Prop :=
  n = .main ∨ p.options.moduleBuild = false ∧
    ∃ package, p.options.packageMode = some package ∧ n = (ModuleName.mk package).child ModuleName.main.text

/-- The first rule speaks about every module with a reserved name. -/
theorem Policy.exists_mainRule {p : Policy} {q : Query} (h : p.Reserves q.name) :
    ∃ reason, p.mainRule q = some (.excluded reason) := by
  rcases h with hmain | ⟨hbuild, package, hpackage, hname⟩
  · exact ⟨.mainNotTwice, by simp [mainRule, ModuleName.isMain, hmain]⟩
  · have hno : ((ModuleName.mk package).child ModuleName.main.text).isMain = false := by
      rw [ModuleName.isMain, beq_eq_false_iff_ne]
      exact ModuleName.main_ne_child.symm
    refine ⟨.mainInPackage, ?_⟩
    simp [mainRule, hno, hbuild, hname, FollowOptions.inPackageMode, FollowOptions.runtimePackage, hpackage,
      ModuleName.basename_child, ModuleName.package?_child, show '.' ∉ ModuleName.main.text.toList by decide]

namespace Engine

variable {e : Engine σ} {q : Query}

/-- Nothing is included under a reserved name. -/
theorem not_reserves_of_stands {reason : Reason} (h : e.Stands q (.included reason)) : ¬ e.policy.Reserves q.name := by
  intro hreserves
  obtain ⟨q', hkey, hd⟩ := h
  rw [← show q'.name = q.name from congrArg QueryKey.name hkey] at hreserves
  obtain ⟨why, hmain⟩ := Policy.exists_mainRule hreserves
  simp [Policy.decide, Policy.rules, hmain] at hd

/-- What is got under the name that is asked for has no reserved name. -/
theorem Gives.not_reserves (hb : e.builder.NamesAsked) {m : ModuleRecord} (h : e.Gives q m) :
    ¬ e.policy.Reserves m.name := by
  obtain ⟨reason, r, signalled, s, s', hd, ⟨hname, _⟩, hc⟩ := h
  have hm : m.name = r.name := by
    cases hc with
    | known hk => exact congrArg Identity.name (Cache.identity_of_find? hk)
    | built _ _ ho => exact (congrArg Identity.name Cache.identity_add).trans (hb _ _ _ ho)
  rw [hm, hname]
  exact not_reserves_of_stands hd

/-- What is built for a request that follows a decision has no reserved name. -/
theorem Grants.not_reserves (hb : e.builder.NamesAsked) {ops : List Operation} {r : RecursionRequest} {m : ModuleRecord}
    (h : e.Grants r m) (hmade : e.Makes ops r) (hops : ∀ op ∈ ops, op.isRequest = false) :
    ¬ e.policy.Reserves m.name := by
  obtain ⟨_, x, o, ho, rfl⟩ := h
  rcases hmade with ⟨signalled, hmem⟩ | ⟨q, reason, ⟨hname, _⟩, hd⟩
  · cases hops _ hmem
  · rw [show o.record.name = q.name from (hb _ _ _ ho).trans hname]
    exact not_reserves_of_stands hd

/-- No use leads to a module with a reserved name. -/
theorem not_reserves_of_uses (hb : e.builder.NamesAsked) {x : σ} {ops : List Operation}
    (hops : ∀ op ∈ ops, op.isRequest = false) {i j : Identity}
    (hu : (e.after ops (.fresh x)).registry.Uses i j) : ¬ e.policy.Reserves j.name := by
  have hfresh : e.Remembers (.fresh x) := .of_nil rfl
  refine (moves_after_of_sanctioned hfresh hops).keeps
    (P := fun s => ∀ i j, s.registry.Uses i j → ¬ e.policy.Reserves j.name) ?_ ?_ i j hu
  · intro a s s' ha hm h i j hu
    cases a with
    | used found user tag reason at_ =>
      obtain ⟨_, hgives⟩ := ha.resolve_left nofun
      cases hm
      rcases Registry.uses_addUse_iff.1 hu with hu | ⟨_, rfl⟩
      · exact h i j hu
      · exact hgives.not_reserves hb
    | rooted m =>
      obtain ⟨_, rfl⟩ := hm
      exact h i j (by simpa [Registry.Uses, Session.addRoot] using hu)
    | entered path =>
      obtain ⟨result, hc⟩ := hm.entered
      refine h i j ?_
      cases hc with
      | failed => exact hu
      | built => simpa [Registry.Uses, Session.entered, Session.built] using hu
    | _ =>
      rw [hm.registry_eq rfl] at hu
      exact h i j hu
  · rintro i j ⟨u, hu, _⟩
    cases hu

end Engine

/-- The entry is not followed a second time, whatever the policy, its plugins and the tree are, over any builder that names
its records as requested, after any operations that ask for no module past the policy: every main module that is kept came
in as the entry, and no use leads to a main module. In package mode, unless a module is built, no module is kept, no root
and no use leads to a module under the name that the main module has in the package. -/
theorem entry_not_followed_twice {e : Engine σ} (hb : e.builder.NamesAsked) {ops : List Operation}
    (hops : ∀ op ∈ ops, op.isRequest = false) (x : σ) :
    let s := e.after ops (.fresh x)
    (∀ m ∈ s.cache.modules, m.name = .main → e.Enters ops (.fresh x) m) ∧
      (∀ u ∈ s.registry.uses, u.used.name ≠ .main) ∧
      ∀ package, e.policy.options.packageMode = some package → e.policy.options.moduleBuild = false →
        let inside := (ModuleName.mk package).child ModuleName.main.text
        (∀ m ∈ s.cache.modules, m.name ≠ inside) ∧ (∀ m ∈ s.registry.roots, m.name ≠ inside) ∧
          ∀ u ∈ s.registry.uses, u.used.name ≠ inside := by
  intro s
  have hfresh : e.Remembers (.fresh x) := .of_nil rfl
  have hkept : ∀ m ∈ s.cache.modules, e.policy.Reserves m.name → e.Enters ops (.fresh x) m := by
    intro m hm hreserves
    refine (Engine.exists_origin_of_fresh hm).resolve_right ?_
    rintro ⟨r, hg, hmade⟩
    exact hg.not_reserves hb hmade hops hreserves
  have huses : ∀ u ∈ s.registry.uses, ¬ e.policy.Reserves u.used.name :=
    fun u hu => Engine.not_reserves_of_uses hb hops ⟨u, hu, rfl, rfl⟩
  have hroots : s.KeepsRoots :=
    (Engine.moves_after hfresh ops).keeps (fun _ _ _ _ hm h => h.move hm) fun m hm => nomatch hm
  refine ⟨fun m hm hmain => hkept m hm (Or.inl hmain), fun u hu hmain => huses u hu (Or.inl hmain), ?_⟩
  intro package hpackage hbuild inside
  have hreserves : ∀ n, n = inside → e.policy.Reserves n := fun n hn => Or.inr ⟨hbuild, package, hpackage, hn⟩
  have hinside : ∀ m ∈ s.cache.modules, m.name ≠ inside := by
    intro m hm hname
    obtain ⟨_, _, _, _, _, hr, _⟩ := hkept m hm (hreserves _ hname)
    exact ModuleName.main_ne_child ((Engine.name_of_addEntry hb hr).symm.trans hname)
  refine ⟨hinside, fun m hm => hinside m ?_, fun u hu hname => huses u hu (hreserves _ hname)⟩
  exact List.mem_of_find?_eq_some (hroots m hm)

/-- An engine that runs the main module of a package below another, with plugins that include everything. A module imports
the main module, and the entry under the name that it has in its package. -/
def Engine.packageRun : Engine (List BuildRequest) where
  policy := {
    options := { packageMode := some "team.tool" }
    followTo := []
    nofollowTo := []
    bytecodeModules := []
    plugins := { encounter := fun _ _ _ => some (.included .followAll) } }
  tree := (FileTree.empty ⟨"/w"⟩).add ["w", "__main__.py"] (.text "")
  builder := .ofTable [
    (.main, { uses := [ModuleTable.edgeTo "app"] }),
    (⟨"app"⟩, { uses := [ModuleTable.edgeTo "__main__", ModuleTable.edgeTo "team.tool.__main__"] }),
    (⟨"team.tool.__main__"⟩, {})]

/-- The main module that a run keeps is the entry, though the entry is also walked in its package and imported. -/
theorem entry_not_followed_twice_packageRun :
    let e := Engine.packageRun
    let entry : ModuleRecord :=
      { name := .main, file := ⟨⟨"/w/__main__.py"⟩⟩, kind := .source, isTop := true, runtimePackage := some ⟨"team.tool"⟩ }
    let ops : List Operation := [.addEntry ⟨"__main__.py"⟩, .walk (.single ⟨"__main__.py"⟩ (some ⟨"team.tool"⟩)), .run 5]
    (e.after ops (.fresh [])).cache.modules.map ModuleRecord.name = [.main, ⟨"app"⟩] ∧ e.Enters ops (.fresh []) entry ∧
      ∀ m ∈ (e.after ops (.fresh [])).registry.roots, m.name ≠ (ModuleName.mk "team.tool").child ModuleName.main.text := by
  intro e entry ops
  have hb : e.builder.NamesAsked := (Builder.answersAsked_ofTable _).namesAsked
  have hentry : entry ∈ (e.after ops (.fresh [])).cache.modules := by decide +kernel
  have hops : ∀ op ∈ ops, op.isRequest = false := by decide
  obtain ⟨hmain, _, hinside⟩ := entry_not_followed_twice hb hops []
  exact ⟨by decide +kernel, hmain entry hentry rfl, (hinside "team.tool" rfl rfl).2.1⟩

end ImportClosure
