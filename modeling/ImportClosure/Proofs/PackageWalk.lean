import ImportClosure.Proofs.Inclusion

/-!
# Walks of packages

A walk of a package directory includes what the directory stands for (`walk_includes_packageTree`). One item is a
subpackage, a submodule or nothing (`Engine.HasIncluded.exists_subpackage` and its neighbours). By induction on what the
names in a directory stand for, a walk uses all of them up and leaves what is below them on the stack
(`Engine.HasIncluded.walksTo`).
-/

namespace ImportClosure

open Step

/-- A session has included these modules, in this order: they are all that it has brought in, and all of them but the
namespace packages are roots. -/
def Engine.HasIncluded (e : Engine (List Identity)) (ms : List ModuleRecord) (s : Session (List Identity)) : Prop :=
  e.HasBuilt ms (ms.filter fun m => !m.isNamespacePackage) s

namespace Engine.HasIncluded

variable {e : Engine (List Identity)} {p : SearchPath} {ms : List ModuleRecord} {s : Session (List Identity)}
  {path q dir : Path} {package : Option ModuleName} {n : ModuleName} {x : String} {names : List String}

/-- What was not brought in is no root. -/
theorem not_mem_roots {i : Identity} (hi : i ∉ ms.map ModuleRecord.identity) :
    i ∉ (ms.filter fun m => !m.isNamespacePackage).map ModuleRecord.identity := by
  intro hmem
  obtain ⟨m, hm, rfl⟩ := List.mem_map.1 hmem
  exact hi (List.mem_map_of_mem (List.mem_of_mem_filter hm))

/-- What is named like a source, and has something in front of the first dot, is asked for as the module of that name. -/
theorem exists_asked (ht : e.tree.IsSourceTree) (hpolicy : e.policy.IsPermissive) (h : e.HasIncluded ms s)
    (hd : dir.IsCanonical e.tree.workDir) (hn : Path.IsStep x ∧ x ≠ "..") (hinit : x ≠ initEntry)
    (hends : Text.endsWith x sourceSuffix = true) (hstem : FileTree.stem x ≠ "")
    (hmain : ModuleName.inPackage (FileTree.stem x) package ≠ .main) :
    ∃ r s₁, r.identity = ⟨.inPackage (FileTree.stem x) package, dir.components ++ [.name x]⟩ ∧
      r.toBuild.target e.tree = (.ofSource (dir.child x) (.inPackage (FileTree.stem x) package), some (dir.child x)) ∧
      (r.toBuild.target e.tree).1.identity = r.identity ∧ e.HasIncluded ms s₁ ∧
      ∀ found s₂, ends (e.fetch r) s₁ = (.ok found, s₂) → ends (e.walkSingle (dir.child x) package) s =
        ends (found.elim (includeFailed (dir.child x)) e.registerIncluded) s₂ := by
  have hfile := ModuleFile.ofPath_of_isCanonical (hd.child hn.1)
  have hname := Path.fileName_child hd.1 hn.1 hn.2
  have hdir := ht.isDir_eq (Path.isAbsolute_child hd.1 x) hname hends
  have hat : e.tree.moduleAt? (dir.child x) = some (FileTree.stem x, .source) := by
    rw [FileTree.moduleAt?_of_endsWith hd.1 hn.1 hn.2 hdir hends, if_neg hstem]
  have hplace : ModuleFile.place ⟨dir.child x⟩ = dir.components ++ [.name x] := by
    rw [← hfile, ModuleFile.place_child ht.isAbsolute hd.1 hn.1 hn.2 hinit]
  obtain ⟨r, s₁, hid, hbuild, h₁, hwalk⟩ := h.exists_fetched hpolicy hfile hat hmain
  have htarget := BuildRequest.target_of_isDir_eq_false (n := .inPackage (FileTree.stem x) package) hdir
    (by simpa [hname] using hinit)
  rw [← hbuild] at htarget
  rw [hplace] at hid
  refine ⟨r, s₁, hid, htarget, ?_, h₁, hwalk⟩
  rw [htarget, hid]
  exact congrArg (Identity.mk _) hplace

variable (he : e.builder = .ofSources p e.tree) (ht : e.tree.IsSourceTree) (hpolicy : e.policy.IsPermissive)

include he ht hpolicy

/-- A package directory is included, and its members are left to be walked. -/
theorem exists_package (h : e.HasIncluded ms s) (hfile : ModuleFile.ofPath e.tree.workDir path = ⟨q⟩)
    (hq : q.IsCanonical e.tree.workDir) (hx : q.fileName = some x) (hinit : x ≠ initEntry)
    (hp : e.tree.isPackage q = true) (hl : e.tree.list q = .ok names) (hname : ModuleName.inPackage x package ≠ .main)
    (hnew : ⟨.inPackage x package, q.components⟩ ∉ ms.map ModuleRecord.identity) :
    ∃ s', ends (e.walkSingle path package) s = (.ok (e.tree.membersIn q (.inPackage x package) names), s') ∧
      e.HasIncluded (ms ++ [e.tree.packageRecord q (.inPackage x package)]) s' := by
  have hfolder : q.fileName ≠ some initEntry := by simpa [hx] using hinit
  obtain ⟨r, s₁, hrid, hbuild, h₁, hwalk⟩ :=
    h.exists_fetched hpolicy hfile (FileTree.moduleAt?_of_isPackage hx hp) hname
  generalize ModuleName.inPackage x package = n at hname hnew hrid hbuild ⊢
  have hid : (e.tree.packageRecord q n).identity = ⟨n, q.components⟩ :=
    congrArg (Identity.mk n) (FileTree.place_packageRecord (n := n) ht.toIsWellFormed hq hfolder)
  rw [ModuleFile.place_of_ne hfolder] at hrid
  have htarget := BuildRequest.target_of_isDir (n := n) hq (FileTree.isDir_of_isPackage hp)
  rw [← hbuild] at htarget
  obtain ⟨s₂, hfetch, h₂⟩ := h₁.exists_fetch he hpolicy.plugins (by rw [htarget, hid, hrid]) (by rwa [hrid]) <| by
    intro source hsource
    rw [htarget] at hsource
    simp only [Option.mem_def, Option.ite_none_right_eq_some, Option.some.injEq] at hsource
    obtain ⟨hentry, rfl⟩ := hsource
    exact ht.exists_text (Path.isAbsolute_child hq.1 _) (Path.fileName_child hq.1 Path.isStep_initEntry (by decide))
      (by decide) hentry
  rw [htarget] at hfetch h₂
  have hfolder' : e.tree.list (e.tree.packageRecord q n).file.identity = .ok names := by
    rw [FileTree.identity_packageRecord hq hx hinit]
    split
    · exact FileTree.list_bare hq hl
    · exact hl
  obtain ⟨s₃, hregister, h₃⟩ := h₂.exists_registerIncluded_package (List.mem_concat_self) rfl rfl
    (by rw [hid]; exact not_mem_roots hnew) hfolder'
  refine ⟨s₃, ?_, ?_⟩
  · rw [hwalk _ _ hfetch, Option.elim_some, hregister, FileTree.identity_packageRecord hq hx hinit]
    have hsteps := fun x hx => ((ht.names_of_list hl).2 x hx).1
    split
    · rw [FileTree.membersIn_bare hq hsteps]
      rfl
    · rfl
  · rw [HasIncluded, List.filter_append]
    exact h₃

/-- A subpackage is included, and its members are left to be walked. -/
theorem exists_subpackage (h : e.HasIncluded ms s) (hd : dir.IsCanonical e.tree.workDir) (hn : Path.IsStep x ∧ x ≠ "..")
    (hx : e.tree.IsSubpackage dir x) (hl : e.tree.list (dir.child x) = .ok names)
    (hnew : ⟨n.child x, dir.components ++ [.name x]⟩ ∉ ms.map ModuleRecord.identity) :
    ∃ s', ends (e.walkSingle (dir.child x) (some n)) s = (.ok (e.tree.membersIn (dir.child x) (n.child x) names), s') ∧
      e.HasIncluded (ms ++ [e.tree.packageRecord (dir.child x) (n.child x)]) s' := by
  have hq := hd.child hn.1
  rw [← Path.components_child_eq hd.1 hn.1 hn.2] at hnew
  have hmain : ModuleName.inPackage x (some n) ≠ .main := n.child_ne_main x
  exact h.exists_package he ht hpolicy (ModuleFile.ofPath_of_isCanonical hq) hq
    (Path.fileName_child hd.1 hn.1 hn.2) hx.ne_initEntry hx.isPackage hl hmain hnew

/-- A submodule is included, and there is nothing below it. -/
theorem exists_submodule (h : e.HasIncluded ms s) (hd : dir.IsCanonical e.tree.workDir) (hn : Path.IsStep x ∧ x ≠ "..")
    (hx : e.tree.IsSubmodule dir x) (hmain : ModuleName.inPackage (FileTree.stem x) package ≠ .main)
    (hnew : ⟨.inPackage (FileTree.stem x) package, dir.components ++ [.name x]⟩ ∉ ms.map ModuleRecord.identity) :
    ∃ s', ends (e.walkSingle (dir.child x) package) s = (.ok [], s') ∧
      e.HasIncluded (ms ++ [.ofSource (dir.child x) (.inPackage (FileTree.stem x) package)]) s' := by
  obtain ⟨r, s₁, hrid, htarget, hid, h₁, hwalk⟩ :=
    h.exists_asked ht hpolicy hd hn hx.ne_initEntry hx.endsWith hx.stem_ne hmain
  rw [← hrid] at hnew
  obtain ⟨s₂, hfetch, h₂⟩ := h₁.exists_fetch he hpolicy.plugins hid hnew <| by
    intro source hsource
    rw [htarget] at hsource
    cases hsource
    exact ht.exists_text (Path.isAbsolute_child hd.1 x) (Path.fileName_child hd.1 hn.1 hn.2) hx.endsWith hx.isFile
  rw [← hid] at hnew
  rw [htarget] at hfetch h₂ hnew
  obtain ⟨s₃, hregister, h₃⟩ := h₂.exists_registerIncluded_module List.mem_concat_self rfl rfl (not_mem_roots hnew)
  refine ⟨s₃, (hwalk _ _ hfetch).trans hregister, ?_⟩
  rw [HasIncluded, List.filter_append]
  exact h₃

/-- Whatever else a walk takes is passed over: it has no name, or there is no reading it. -/
theorem exists_passed (h : e.HasIncluded ms s) (hd : dir.IsCanonical e.tree.workDir) (hn : Path.IsStep x ∧ x ≠ "..")
    (hm : isMember e.tree dir x = true) (hp : ¬ e.tree.IsSubpackage dir x) (hs : ¬ e.tree.IsSubmodule dir x)
    (hnew : ∀ n, ⟨n, dir.components ++ [.name x]⟩ ∉ ms.map ModuleRecord.identity) :
    ∃ s', ends (e.walkSingle (dir.child x) (some n)) s = (.ok [], s') ∧ e.HasIncluded ms s' := by
  obtain ⟨hinit, hends⟩ := ((FileTree.isMember_iff hd.1 hn.1).1 hm).resolve_left hp
  have hdir := ht.isDir_eq (Path.isAbsolute_child hd.1 x) (Path.fileName_child hd.1 hn.1 hn.2) hends
  by_cases hstem : FileTree.stem x = ""
  · refine h.exists_walkSingle_nothing ?_
    rw [ModuleFile.ofPath_of_isCanonical (hd.child hn.1), FileTree.moduleAt?_of_endsWith hd.1 hn.1 hn.2 hdir hends,
      if_pos hstem]
  · have hf : e.tree.isFile (dir.child x) = false := by
      rw [← Bool.not_eq_true]
      exact fun hf => hs ⟨hinit, hf, hends, hstem⟩
    have hread : ¬ e.tree.Parses (dir.child x) := by
      obtain ⟨cause, hcause⟩ := FileTree.exists_readText_eq_error hf hdir
      rintro ⟨text, _, htext, _⟩
      rw [hcause] at htext
      cases htext
    have hmain : ModuleName.inPackage (FileTree.stem x) (some n) ≠ .main := n.child_ne_main _
    obtain ⟨r, s₁, hrid, htarget, hid, h₁, hwalk⟩ := h.exists_asked ht hpolicy hd hn hinit hends hstem hmain
    obtain ⟨s₂, hfetch, h₂⟩ :=
      h₁.exists_fetch_none he hpolicy.plugins hid (hrid ▸ hnew _) (congrArg Prod.snd htarget) hread
    exact ⟨_, hwalk _ _ hfetch, h₂.remark _ _ _⟩

end Engine.HasIncluded

/-! ## Names that are still to be walked -/

/-- These names in a directory are still to be walked: none of these modules is at one of the names or below it. -/
structure FileTree.StillToWalk (t : FileTree) (ms : List ModuleRecord) (dir : Path) (names : List String) : Prop where
  isCanonical : dir.IsCanonical t.workDir
  nodup : names.Nodup
  steps : ∀ x ∈ names, Path.IsStep x ∧ x ≠ ".."
  noneBelow : ∀ x ∈ names, ∀ m ∈ ms, ¬ dir.components ++ [.name x] <+: m.file.place

namespace FileTree.StillToWalk

variable {t : FileTree} {ms more : List ModuleRecord} {m : ModuleRecord} {dir : Path} {n : ModuleName} {x : String}
  {names members : List String}

/-- What is still to be walked behind a name is so without it. -/
theorem tail (h : t.StillToWalk ms dir (x :: names)) : t.StillToWalk ms dir names :=
  ⟨h.isCanonical, (List.nodup_cons.1 h.nodup).2, (List.forall_mem_cons.1 h.steps).2,
    (List.forall_mem_cons.1 h.noneBelow).2⟩

/-- A name that is still to be walked is a step down. -/
theorem head (h : t.StillToWalk ms dir (x :: names)) : Path.IsStep x ∧ x ≠ ".." :=
  h.steps x List.mem_cons_self

/-- What is at the first of the names is new. -/
theorem not_mem (h : t.StillToWalk ms dir (x :: names)) :
    ⟨n, dir.components ++ [.name x]⟩ ∉ ms.map ModuleRecord.identity := by
  intro hmem
  obtain ⟨m, hm, hid⟩ := List.mem_map.1 hmem
  have hplace : m.file.place = dir.components ++ [.name x] := congrArg Identity.place hid
  exact h.noneBelow x List.mem_cons_self m hm (hplace ▸ List.prefix_rfl)

/-- What lies below the first of the names does not lie below the others. -/
theorem append (h : t.StillToWalk ms dir (x :: names)) (hx : ∀ m ∈ more, dir.components ++ [.name x] <+: m.file.place) :
    t.StillToWalk (ms ++ more) dir names where
  isCanonical := h.isCanonical
  nodup := h.tail.nodup
  steps := h.tail.steps
  noneBelow y hy m hm hprefix := by
    rcases List.mem_append.1 hm with hm | hm
    · exact h.tail.noneBelow y hy m hm hprefix
    · have hlen : (dir.components ++ [Path.Component.name x]).length =
          (dir.components ++ [Path.Component.name y]).length := by simp
      have heq := (List.prefix_of_prefix_length_le (hx m hm) hprefix hlen.le).eq_of_length hlen
      obtain rfl : x = y := by simpa using heq
      exact (List.nodup_cons.1 h.nodup).1 hy

/-- What is at a directory is not below it. -/
theorem list (ht : t.IsWellFormed) (hd : dir.IsCanonical t.workDir) (hl : t.list dir = .ok names)
    (hms : ∀ m ∈ ms, dir.components <+: m.file.place → m.file.place = dir.components) : t.StillToWalk ms dir names where
  isCanonical := hd
  nodup := (ht.names_of_list hl).1
  steps := (ht.names_of_list hl).2
  noneBelow y _ m hm hprefix := by
    have hplace := hms m hm ((List.prefix_append _ _).trans hprefix)
    have hlen := hprefix.length_le
    simp [hplace] at hlen

/-- When the first of the names is that of a subpackage, and has been included, the names in it are to be walked. -/
theorem inside (h : t.StillToWalk ms dir (x :: names)) (ht : t.IsWellFormed) (hl : t.list (dir.child x) = .ok members)
    (hm : m.file.place = dir.components ++ [.name x]) : t.StillToWalk (ms ++ [m]) (dir.child x) members := by
  have hcomp := Path.components_child_eq h.isCanonical.1 h.head.1 h.head.2
  refine .list ht (h.isCanonical.child h.head.1) hl fun m' hm' hprefix => ?_
  rw [hcomp] at hprefix ⊢
  rcases List.mem_append.1 hm' with hm' | hm'
  · exact absurd hprefix (h.noneBelow x List.mem_cons_self m' hm')
  · obtain rfl := List.mem_singleton.1 hm'
    exact hm

end FileTree.StillToWalk

/-! ## Whole walks -/

/-- So many steps of a walk use these items up, whatever is below them on the stack, and leave this session. -/
def Engine.UsesUp {σ : Type} (e : Engine σ) (steps : Nat) (items : List WalkItem) (s s' : Session σ) : Prop :=
  ∀ bound rest, ends (e.walkStack (steps + bound) (items ++ rest)) s = ends (e.walkStack bound rest) s'

namespace Engine.UsesUp

variable {σ : Type} {e : Engine σ} {k l : Nat} {item : WalkItem} {items children : List WalkItem} {s s₁ s' : Session σ}

/-- No items are used up in no step. -/
theorem nil : e.UsesUp 0 [] s s := by
  intro bound rest
  rw [Nat.zero_add, List.nil_append]

/-- An item is used up when it has been expanded and its children are used up; then the items below it are. -/
theorem cons {s₂ : Session σ} (hitem : ends (e.expand item) s = (.ok children, s₁)) (hc : e.UsesUp k children s₁ s₂)
    (hi : e.UsesUp l items s₂ s') : e.UsesUp (1 + k + l) (item :: items) s s' := by
  intro bound rest
  rw [show 1 + k + l + bound = (k + (l + bound)) + 1 by omega, List.cons_append, walkStack, ends_bind_ok hitem,
    hc (l + bound) (items ++ rest), hi bound rest]

end Engine.UsesUp

/-- Walking names in the directory of a package, which takes no more steps than there are things below them, leaves a
session that has included these modules. -/
def Engine.WalksTo (e : Engine (List Identity)) (dir : Path) (n : ModuleName) (names : List String)
    (ms : List ModuleRecord) (s : Session (List Identity)) : Prop :=
  ∃ steps s', steps ≤ e.tree.stepsFor dir names ∧ e.HasIncluded ms s' ∧ e.UsesUp steps (e.tree.membersIn dir n names) s s'

namespace Engine.WalksTo

variable {e : Engine (List Identity)} {ms : List ModuleRecord} {s s₁ s₂ : Session (List Identity)} {dir : Path}
  {n : ModuleName} {x : String} {names : List String} {k : Nat} {children : List WalkItem}

/-- Without names a session has included what it has. -/
theorem nil (h : e.HasIncluded ms s) : e.WalksTo dir n [] ms s :=
  ⟨0, s, Nat.zero_le _, h, .nil⟩

/-- A name that is walked comes before the others, with all that is below it. -/
theorem cons (hx : isMember e.tree dir x = true)
    (hwalk : ends (e.walkSingle (dir.child x) (some n)) s = (.ok children, s₁))
    (hk : k ≤ e.tree.below (dir.child x).components) (hc : e.UsesUp k children s₁ s₂) (h : e.WalksTo dir n names ms s₂) :
    e.WalksTo dir n (x :: names) ms s := by
  obtain ⟨l, s₃, hl, h₃, hused⟩ := h
  refine ⟨1 + k + l, s₃, ?_, h₃, ?_⟩
  · rw [FileTree.stepsFor_cons hx]
    omega
  · rw [FileTree.membersIn_cons hx]
    exact .cons hwalk hc hused

/-- A name that is not walked does not count. -/
theorem cons_of_not (hx : ¬ isMember e.tree dir x = true) (h : e.WalksTo dir n names ms s) :
    e.WalksTo dir n (x :: names) ms s := by
  obtain ⟨l, s₃, hl, h₃, hused⟩ := h
  rw [WalksTo, FileTree.stepsFor_cons_of_not hx, FileTree.membersIn_cons_of_not hx]
  exact ⟨l, s₃, hl, h₃, hused⟩

end Engine.WalksTo

/-- Walking names in the directory of a package includes what the names stand for. -/
theorem Engine.HasIncluded.walksTo {e : Engine (List Identity)} {p : SearchPath} {ms ms' : List ModuleRecord}
    {s : Session (List Identity)} {dir : Path} {n : ModuleName} {names : List String}
    (he : e.builder = .ofSources p e.tree) (ht : e.tree.IsSourceTree) (hpolicy : e.policy.IsPermissive)
    (hm : e.tree.MembersOf dir n names ms')
    (htodo : e.tree.StillToWalk ms dir names) (h : e.HasIncluded ms s) : e.WalksTo dir n names (ms ++ ms') s := by
  induction hm generalizing ms s with
  | nil => exact .nil (by simpa using h)
  | @package dir n x inside names below more hx hl hb hm ihb ihm =>
    have hd := htodo.isCanonical
    have hplace := hx.place_eq (n := n.child x) ht.toIsWellFormed hd htodo.head
    have hbelow := hx.prefix_of_membersOf ht.toIsWellFormed hd htodo.head hl hb
    obtain ⟨s₁, hwalk, h₁⟩ := h.exists_subpackage he ht hpolicy hd htodo.head hx hl htodo.not_mem
    obtain ⟨k, s₂, hk, h₂, hused⟩ := ihb (htodo.inside ht.toIsWellFormed hl hplace) h₁
    rw [List.append_assoc, List.singleton_append] at h₂
    have hrest := ihm (htodo.append hbelow) h₂
    rw [List.append_assoc] at hrest
    exact hrest.cons ((FileTree.isMember_iff hd.1 htodo.head.1).2 (Or.inl hx)) hwalk
      (hk.trans (ht.sum_below_le (Path.isAbsolute_child hd.1 x) hl _)) hused
  | @module dir n x names more hx hm ih =>
    have hd := htodo.isCanonical
    have hplace := hx.place_eq (n := .inPackage (FileTree.stem x) (some n)) ht.toIsWellFormed hd htodo.head
    have hmain : ModuleName.inPackage (FileTree.stem x) (some n) ≠ .main := n.child_ne_main _
    obtain ⟨s₁, hwalk, h₁⟩ := h.exists_submodule he ht hpolicy hd htodo.head hx hmain htodo.not_mem
    have hrest := ih (htodo.append (by simp [hplace])) h₁
    rw [List.append_assoc, List.singleton_append] at hrest
    exact hrest.cons ((FileTree.isMember_iff hd.1 htodo.head.1).2 (Or.inr ⟨hx.ne_initEntry, hx.endsWith⟩)) hwalk
      (Nat.zero_le _) .nil
  | @other dir n x names more hp hs hm ih =>
    by_cases hmember : isMember e.tree dir x = true
    · obtain ⟨s₁, hwalk, h₁⟩ :=
        h.exists_passed he ht hpolicy htodo.isCanonical htodo.head hmember hp hs fun n => htodo.not_mem
      exact (ih htodo.tail h₁).cons hmember hwalk (Nat.zero_le _) .nil
    · exact (ih htodo.tail h).cons_of_not hmember

/-- An empty stack is walked. -/
theorem Engine.ends_walkStack_nil {σ : Type} (e : Engine σ) (bound : Nat) (s : Session σ) :
    ends (e.walkStack bound []) s = (.ok (), s) := by
  cases bound <;> rfl

/-! ## Packages -/

/-- Over the sources of a tree, when nothing speaks against it: walking a real package directory brings in what the
directory stands for, each module once and in this order, and makes all of it roots but the namespace packages. The
directory is looked up by the path that was given, and by its path from the root. -/
theorem walk_includes_packageTree {e : Engine (List Identity)} {p : SearchPath} {dir : Path} {d : String}
    (he : e.builder = .ofSources p e.tree) (ht : e.tree.IsSourceTree) (hpolicy : e.policy.IsPermissive)
    (hdir : e.tree.isRealPackage dir = true) (habs : e.tree.isRealPackage (dir.absolute e.tree.workDir) = true)
    (hd : (dir.absolute e.tree.workDir).fileName = some d) (hmain : d ≠ "__main__") :
    ∃ ms s, e.tree.PackageTree (dir.absolute e.tree.workDir) ⟨d⟩ ms ∧
      ends (e.walk (.path dir none)) (.fresh []) = (.ok (), s) ∧ s.cache.modules = ms ∧
      (ms.map ModuleRecord.identity).Nodup ∧ s.newBuilds = (ms.map ModuleRecord.identity).reverse ∧
      s.registry.roots = ms.filter fun m => !m.isNamespacePackage := by
  have hw : e.tree.workDir.IsCanonical e.tree.workDir := ht.isPlain.isCanonical ht.isAbsolute
  have htext : dir.text ≠ "" := by
    rcases dir with ⟨text⟩
    rintro rfl
    cases hd
  have hq := Path.isCanonical_absolute hw htext
  have hfile : ModuleFile.ofPath e.tree.workDir dir = ⟨dir.absolute e.tree.workDir⟩ := rfl
  generalize dir.absolute e.tree.workDir = q at habs hd hq hfile ⊢
  have hp := FileTree.isPackage_of_isRealPackage habs
  have hinit : d ≠ initEntry := by
    rintro rfl
    exact ht.not_mem_of_isDir hq.1 hd (FileTree.isDir_of_isPackage hp) (by decide)
  obtain ⟨ms, htree⟩ := ht.exists_packageTree hq.1 (FileTree.isDir_of_isPackage hp) ⟨d⟩
  obtain ⟨names, members, hl, hmembers, rfl⟩ := id htree
  have hname : ModuleName.inPackage d none ≠ .main := fun h => hmain (congrArg ModuleName.text h)
  -- the path stands for itself, which is the first item that is walked
  have h₀ : e.HasIncluded [] (.fresh []) := .fresh e
  obtain ⟨s₁, hpath, h₁⟩ : ∃ s₁, ends (e.expand (.path dir none)) (.fresh []) = (.ok [.single dir none], s₁) ∧
      e.HasIncluded [] s₁ := h₀.exists_walkPath hdir
  obtain ⟨s₂, hwalk, h₂⟩ : ∃ s₂, ends (e.expand (.single dir none)) s₁ = (.ok (e.tree.membersIn q ⟨d⟩ names), s₂) ∧
      e.HasIncluded [e.tree.packageRecord q ⟨d⟩] s₂ :=
    h₁.exists_package he ht hpolicy hfile hq hd hinit hp hl hname List.not_mem_nil
  -- its members are walked next, and nothing else is on the stack
  have hplace := FileTree.place_packageRecord (n := ⟨d⟩) ht.toIsWellFormed hq (by simpa [hd] using hinit)
  have htodo : e.tree.StillToWalk [e.tree.packageRecord q ⟨d⟩] q names := .list ht.toIsWellFormed hq hl (by simp [hplace])
  obtain ⟨k, s₃, hk, h₃, hused⟩ := h₂.walksTo he ht hpolicy hmembers htodo
  have hroom : k ≤ e.tree.size :=
    hk.trans ((ht.sum_below_le hq.1 hl _).trans (e.tree.below_le_size q.components))
  refine ⟨_, s₃, htree, ?_, h₃.modules, h₃.nodup, h₃.newBuilds, h₃.roots_eq⟩
  have hall : e.UsesUp (1 + k + 0) [.single dir none] s₁ s₃ := .cons hwalk hused .nil
  unfold Engine.walk
  rw [ends_bind_ok hpath, List.length_singleton,
    show 1 * (e.tree.size + 2) + 1 = 1 + k + 0 + (e.tree.size + 2 - k) by omega,
    ← List.append_nil [WalkItem.single dir none], hall, Engine.ends_walkStack_nil]

/-- A package with a subpackage, a namespace package, a directory that a source shadows, and names with several dots. -/
def FileTree.nestedPackage : FileTree :=
  .packageOf [["a.py"], ["a", "hidden.py"], ["sub", initEntry], ["sub", "b.c.py"], ["space", "deep", "d.py"], [".py"]]

theorem walk_includes_packageTree_nested :
    let e := Engine.overSources .nestedPackage
    ∃ ms s, e.tree.PackageTree ⟨"/w/pkg"⟩ ⟨"pkg"⟩ ms ∧ ends (e.walk (.path ⟨"pkg"⟩ none)) (.fresh []) = (.ok (), s) ∧
      s.cache.modules = ms ∧ (ms.map ModuleRecord.identity).Nodup ∧
      s.newBuilds = (ms.map ModuleRecord.identity).reverse ∧
      s.registry.roots = ms.filter fun m => !m.isNamespacePackage := by
  have ht : FileTree.nestedPackage.IsSourceTree :=
    ⟨FileTree.isWellFormed_packageOf (by decide), by decide +kernel, by decide +kernel⟩
  have hdir : FileTree.nestedPackage.isRealPackage ⟨"pkg"⟩ = true := by decide +kernel
  have hreal : FileTree.nestedPackage.isRealPackage ⟨"/w/pkg"⟩ = true := by decide +kernel
  have hname : Path.fileName ⟨"/w/pkg"⟩ = some "pkg" := by decide
  have habs : Path.absolute ⟨"pkg"⟩ FileTree.nestedPackage.workDir = ⟨"/w/pkg"⟩ := by decide +kernel
  -- the tree is not looked into any more
  generalize FileTree.nestedPackage = t at ht hdir hreal habs ⊢
  rw [← habs] at hreal hname ⊢
  exact walk_includes_packageTree (p := {}) rfl ht ⟨rfl, rfl, rfl, rfl⟩ hdir hreal hname (by decide)

end ImportClosure
