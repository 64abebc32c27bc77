import ImportClosure.Proofs.Explored
import ImportClosure.Proofs.LeastClosure
import ImportClosure.Proofs.Stricter

/-!
# A stricter policy keeps no more

Two sessions are run by the same operations, with engines that differ by their policies only, one of which is stricter. If
both runs complete, what the stricter one keeps the other one keeps as well (`keeps_of_stricter`), although they build their
modules in different passes. Neither run is followed step by step for this. A completed run is told by what its walks lead
to and by what brings what in (`Engine.Completed`), and both of these grow with the policy.
-/

namespace ImportClosure

open Step

namespace Engine

variable {e strict lenient : Engine (List BuildRequest)} {table : ModuleTable} {entry : Identity} {items : List WalkItem}
  {s s' : Session (List BuildRequest)}

/-! ## Completed runs -/

/-- A run that walked some items is complete: nothing is queued, all that the items lead to is kept, and nothing else was
obtained by a path. -/
structure Completed (e : Engine (List BuildRequest)) (table : ModuleTable) (entry : Identity) (items : List WalkItem)
    (s : Session (List BuildRequest)) : Prop where
  begun : Begun e table entry s
  queue : s.queue = []
  keeps : ∀ item ∈ items, ∀ q, e.Reaches table item q → s.Keeps q.identity
  obtained : ∀ i ∈ s.obtained, ∃ item ∈ items, ∃ q, e.Reaches table item q ∧ q.identity = i

/-- Operations that succeed and are ended by a run to the fixed point come to this. -/
theorem Completed.of_run (he : e.IsOver table) (ht : e.tree.IsWellFormed) (hasks : e.AsksPlainly table) {path : Path}
    {ops : List Operation} (hentry : ops.filter Operation.isEntry = [.addEntry path])
    (hops : ∀ op ∈ ops, op.isEntry || op.isWalk || op.isPass) (hitems : ∀ op ∈ ops, ∀ item ∈ op.items, item.IsPlain)
    {bound : Nat} {report : Report} (hrun : ends (e.performAll ops) (.fresh []) = (.ok (), s))
    (hfix : ends (e.runToFixedPoint bound) s = (.ok (some report), s')) :
    e.Completed table (e.entryBuild path).identity (ops.flatMap Operation.items) s' := by
  have hs := Begun.of_performAll he hentry hops hrun
  have hfresh : e.Tidy table (.fresh []) := .fresh e table []
  obtain ⟨hmoves, hkept⟩ := performAll_explores he ht hasks hops hitems hfresh
  rw [hrun] at hmoves
  have hmoves' : Moves e (Action.Explores e table (ops.flatMap Operation.items)) s (ends (e.runToFixedPoint bound) s).2 :=
    (runToFixedPoint_explores he hasks bound (hfresh.moves he hmoves)).1
  rw [hfix] at hmoves'
  obtain ⟨s₁, hpasses, rfl, _⟩ := passes_of_runToFixedPoint hfix
  have hs₁ : Begun e table (e.entryBuild path).identity s₁ := hpasses.keeps (fun _ _ _ hpass h => h.runPass he hpass) hs
  constructor
  · exact hs₁.move_of_walks he (a := .remarked) trivial ⟨_, _, _, rfl⟩
  · show s₁.queue = []
    rw [Session.queue, hpasses.pending_eq_nil, List.map_nil]
  · intro item hitem q hq
    obtain ⟨op, hop, hitem⟩ := List.mem_flatMap.1 hitem
    exact hmoves'.keeps_mono (hkept () s hrun op hop item hitem q hq)
  · intro i hi
    rcases obtained_of_explores he hfresh (hmoves.trans hmoves') hi with hold | hreached
    · cases hold
    · exact hreached

/-! ## Two engines -/

/-- Two engines over a table differ by their policies only, and the policy of one is stricter. -/
structure Tightens (strict lenient : Engine (List BuildRequest)) (table : ModuleTable) : Prop where
  isOver : lenient.IsOver table
  builder : strict.builder = lenient.builder
  tree : strict.tree = lenient.tree
  policy : strict.policy.Stricter lenient.policy

namespace Tightens

/-- The stricter engine is over the table, too. -/
theorem isOver_strict (h : strict.Tightens lenient table) : strict.IsOver table where
  builder := h.builder.trans h.isOver.builder
  plugins := h.policy.plugins ▸ h.isOver.plugins
  library := h.policy.library ▸ h.isOver.library

/-- Both engines know of the same imports. -/
theorem targets_iff (h : strict.Tightens lenient table) {name : ModuleName} {q : Query} :
    strict.Targets table name q ↔ lenient.Targets table name q := by
  rw [Targets, h.policy.plugins, Targets]

/-- What the stricter engine admits the other does. -/
theorem admits (h : strict.Tightens lenient table) {q : Query} (ha : strict.Admits table q) : lenient.Admits table q :=
  ⟨h.policy.isIncluded ha.1, ha.2⟩

/-- What a module brings in under the stricter policy it brings in under the other. -/
theorem brings (h : strict.Tightens lenient table) {i j : Identity} (hb : strict.Brings table i j) :
    lenient.Brings table i j := by
  obtain ⟨q, hq, hid, hinc, hbuilds⟩ := hb
  exact ⟨q, h.targets_iff.1 hq, hid, h.policy.isIncluded hinc, hbuilds⟩

/-- Both engines take the same module for the entry. -/
theorem identity_entryBuild (h : strict.Tightens lenient table) (path : Path) :
    (strict.entryBuild path).identity = (lenient.entryBuild path).identity := by
  rw [entryBuild, h.tree, entryBuild]

/-- What a completed run of the lenient engine keeps is closed for the strict one. -/
theorem isClosed (h : strict.Tightens lenient table) (h₁ : lenient.Completed table entry items s)
    (h₂ : strict.Completed table entry items s') :
    strict.IsClosed table entry {i | i ∈ s'.obtained} {i | s.Keeps i} where
  mem_entry := (h₁.begun.onTrack.tracked.pushed _ h₁.begun.mem_entry).1
  seeds_subset := by
    intro i hi
    obtain ⟨item, hitem, q, hq, rfl⟩ := h₂.obtained i hi
    exact h₁.keeps item hitem q (hq.mono h.tree fun _ => h.admits)
  step := fun _ hi hexp _ hb => h₁.begun.keeps_of_brings h₁.queue hi hexp (h.brings hb)

end Tightens

end Engine

/-- A stricter policy keeps no more. Over a table, with plugins that answer by name, walks, passes and one building of the
entry are performed in any order by two engines that differ by their policies only, and a run to the fixed point ends both.
If all of it succeeds, the engine of the lenient policy keeps whatever the engine of the stricter one keeps. Files are
absolute, and no path begins with two slashes: such a path leads where one with a single slash does, but it is a byte
longer, and there is a limit to the length of paths. -/
theorem keeps_of_stricter {strict lenient : Engine (List BuildRequest)} {table : ModuleTable}
    (h : strict.Tightens lenient table) (ht : lenient.tree.IsWellFormed) (hasks : lenient.AsksPlainly table) {path : Path}
    {ops : List Operation} (hentry : ops.filter Operation.isEntry = [.addEntry path])
    (hops : ∀ op ∈ ops, op.isEntry || op.isWalk || op.isPass) (hitems : ∀ op ∈ ops, ∀ item ∈ op.items, item.IsPlain)
    {s₁ s₁' s₂ s₂' : Session (List BuildRequest)} {bound₁ bound₂ : Nat} {report₁ report₂ : Report}
    (hrun₁ : ends (lenient.performAll ops) (.fresh []) = (.ok (), s₁))
    (hfix₁ : ends (lenient.runToFixedPoint bound₁) s₁ = (.ok (some report₁), s₁'))
    (hrun₂ : ends (strict.performAll ops) (.fresh []) = (.ok (), s₂))
    (hfix₂ : ends (strict.runToFixedPoint bound₂) s₂ = (.ok (some report₂), s₂')) {i : Identity} (hi : s₂'.Keeps i) :
    s₁'.Keeps i := by
  have hasks₂ : strict.AsksPlainly table := fun name q hq => hasks name q (h.targets_iff.1 hq)
  have h₁ := Engine.Completed.of_run h.isOver ht hasks hentry hops hitems hrun₁ hfix₁
  have h₂ := Engine.Completed.of_run h.isOver_strict (h.tree ▸ ht) hasks₂ hentry hops hitems hrun₂ hfix₂
  rw [h.identity_entryBuild path] at h₂
  -- what the strict engine keeps is in every set that is closed for it
  exact h₂.begun.onTrack.tracked.least _ (h.isClosed h₁ h₂) i hi

namespace ModuleTable

/-- An entry that imports two modules, and a package with a member that imports a third one. -/
def branching : ModuleTable := [
  (.main, { uses := [edgeTo "a", edgeTo "b"] }),
  (⟨"a"⟩, {}),
  (⟨"b"⟩, {}),
  (⟨"c"⟩, {}),
  (⟨"pkg"⟩, { isPackage := true }),
  (⟨"pkg.member"⟩, { uses := [edgeTo "c"] })]

/-- An engine for some options and a profile, over this table and a tree with the package. -/
def branchingEngine (o : FollowOptions) (profile : Profile) : Engine (List BuildRequest) where
  policy := {
    options := o
    followTo := (NamePatterns.ofTexts o.followTo).toOption.getD []
    nofollowTo := (NamePatterns.ofTexts o.nofollowTo).toOption.getD []
    bytecodeModules := []
    profile }
  tree := (FileTree.empty ⟨"/w"⟩).add ["w", "pkg", "member.py"] (.text "")
  builder := .ofTable branching

/-- The branching engine is over its table, whatever its options and its profile are. -/
theorem isOver_branchingEngine (o : FollowOptions) (profile : Profile) : (branchingEngine o profile).IsOver branching :=
  ⟨rfl, ⟨fun _ _ _ _ => rfl, fun _ _ _ => rfl⟩, fun _ _ _ => rfl⟩

/-- The tree of the branching engine is as a disk can hold it. -/
theorem isWellFormed_branchingEngine (o : FollowOptions) (profile : Profile) :
    (branchingEngine o profile).tree.IsWellFormed := by
  have hempty : (FileTree.empty ⟨"/w"⟩).IsWellFormed := FileTree.isWellFormed_empty (by decide) (by decide)
  have hnames : ∀ name ∈ ["w", "pkg", "member.py"], Path.IsStep name ∧ name ≠ ".." := by decide
  exact hempty.add _ hnames

/-- The imports of the branching table are to plainly written files. -/
theorem asksPlainly_branchingEngine (o : FollowOptions) (profile : Profile) :
    (branchingEngine o profile).AsksPlainly branching := by
  have hrows : ∀ entry ∈ branching, ∀ q ∈ entry.2.uses.filterMap ImportEdge.query?, q.file.path.IsPlain := by decide
  rintro name q (⟨row, hrow, hq⟩ | ⟨_, _, _, hi, hq⟩)
  · obtain ⟨before, behind, htable, _⟩ := List.lookup_eq_some_iff.1 hrow
    exact hrows (name, row) (by simp [htable]) q hq
  · cases hi
    cases hq

end ModuleTable

/-- One policy follows everything. A stricter one follows one module, and it does not include the package that is walked. -/
theorem keeps_of_stricter_branching :
    let lenient := ModuleTable.branchingEngine { followAll := true, followTo := ["a", "b"] }
      ({ included := [⟨"c"⟩] } : ProfileData).profile
    let strict := ModuleTable.branchingEngine { followTo := ["a"], nofollowTo := ["pkg"] }
      ({ excluded := [⟨"c"⟩] } : ProfileData).profile
    let ops : List Operation := [.walk (.single ⟨"pkg"⟩ none), .addEntry ⟨"main.py"⟩, .pass]
    let a : Identity := ⟨⟨"a"⟩, [.root, .name "w", .name "a.py"]⟩
    ∃ s₁ report₁ s₁' s₂ report₂ s₂', ends (lenient.performAll ops) (.fresh []) = (.ok (), s₁) ∧
      ends (lenient.runToFixedPoint 4) s₁ = (.ok (some report₁), s₁') ∧
      ends (strict.performAll ops) (.fresh []) = (.ok (), s₂) ∧
      ends (strict.runToFixedPoint 4) s₂ = (.ok (some report₂), s₂') ∧ s₂'.Keeps a ∧ s₁'.Keeps a := by
  intro lenient strict ops a
  have hcomplete : ∀ e ∈ [lenient, strict], (ends (e.performAll ops) (.fresh [])).1.isOk = true ∧
      (ends (e.runToFixedPoint 4) (ends (e.performAll ops) (.fresh [])).2).1.toOption.join.isSome = true := by
    decide +kernel
  have hends : ∀ e ∈ [lenient, strict], ∃ s report s', ends (e.performAll ops) (.fresh []) = (.ok (), s) ∧
      ends (e.runToFixedPoint 4) s = (.ok (some report), s') := by
    intro e hmem
    obtain ⟨hok, hsome⟩ := hcomplete e hmem
    obtain ⟨_, s, hrun⟩ := exists_of_isOk hok
    rw [hrun] at hsome
    obtain ⟨report, s', hfix⟩ := exists_of_isSome hsome
    exact ⟨s, report, s', hrun, hfix⟩
  obtain ⟨s₁, report₁, s₁', hrun₁, hfix₁⟩ := hends lenient (by simp)
  obtain ⟨s₂, report₂, s₂', hrun₂, hfix₂⟩ := hends strict (by simp)
  have hkept : s₂'.Keeps a := by
    have hs : s₂' = (ends (strict.runToFixedPoint 4) (ends (strict.performAll ops) (.fresh [])).2).2 := by
      rw [hrun₂, hfix₂]
    rw [hs]
    decide +kernel
  have htightens : strict.Tightens lenient .branching := by
    have hlenient : Policy.ofOptions lenient.policy.options = .ok { lenient.policy with profile := {} } := rfl
    have hstrict : Policy.ofOptions strict.policy.options = .ok { strict.policy with profile := {} } := rfl
    have hprofile : strict.policy.profile.Stricter lenient.policy.profile := ProfileData.stricter (by decide) (by decide)
    refine ⟨ModuleTable.isOver_branchingEngine _ _, rfl, rfl, ?_⟩
    exact .of_ofOptions hstrict hlenient rfl (by decide) (by decide) (by decide) hprofile
  have htree := ModuleTable.isWellFormed_branchingEngine lenient.policy.options lenient.policy.profile
  have hasks := ModuleTable.asksPlainly_branchingEngine lenient.policy.options lenient.policy.profile
  exact ⟨s₁, report₁, s₁', s₂, report₂, s₂', hrun₁, hfix₁, hrun₂, hfix₂, hkept,
    keeps_of_stricter htightens htree hasks rfl (by decide) (by decide) hrun₁ hfix₁ hrun₂ hfix₂ hkept⟩

end ImportClosure
