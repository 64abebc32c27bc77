import ImportClosure.Proofs.Members
import ImportClosure.Proofs.Resolved

/-!
# Enclosing packages among the edges of an import

An absolute import that is found brings an edge for each package around the module, outermost first, so every name among
its edges stands behind all packages around it (`ModuleName.IsNested`). A relative import brings none: what lies between
the package that it starts from and the module that it names is passed through without an edge
(`ImportStatement.PassesThrough`), and nothing else is left out (`enclosing_is_earlier_iff`).
-/

namespace ImportClosure

namespace ModuleName

variable {n p q : ModuleName} {names : List ModuleName}

/-! ## The packages around a name -/

/-- A name without a package has no parent packages. -/
theorem parentPackages_of_none (h : n.package? = none) : n.parentPackages = [] := by
  unfold parentPackages
  cases n.components.length with
  | zero => rfl
  | succ bound => simp [enclosingUpTo, h]

/-- The packages around a name are those around its enclosing package, and this package. -/
theorem parentPackages_of_package? (h : n.package? = some p) : n.parentPackages = p.parentPackages ++ [p] := by
  obtain ⟨last, hn⟩ := package?_eq_some_iff.1 h
  have hlen : n.components.length = p.components.length + 1 := by simp [hn]
  rw [parentPackages, hlen, enclosingUpTo, h]
  exact List.reverse_cons

/-- A parent package has fewer components. -/
theorem length_lt_of_mem_parentPackages (h : p ∈ n.parentPackages) : p.components.length < n.components.length := by
  cases hn : n.package? with
  | none =>
    rw [parentPackages_of_none hn] at h
    cases h
  | some q =>
    obtain ⟨last, hlast⟩ := package?_eq_some_iff.1 hn
    rw [parentPackages_of_package? hn] at h
    rw [hlast, List.length_append, List.length_singleton]
    rcases List.mem_append.1 h with h | h
    · exact Nat.lt_succ_of_le (prefix_of_mem_parentPackages h).length_le
    · rw [List.mem_singleton.1 h]
      exact Nat.lt_succ_self _

/-! ## Lists of names -/

/-- Each name of a list stands behind all packages around it. -/
def IsNested (names : List ModuleName) : Prop :=
  ∀ before n after, names = before ++ n :: after → ∀ p ∈ n.parentPackages, p ∈ before

/-- A name may stand behind a list that holds all packages around it. -/
theorem IsNested.concat (h : IsNested names) (hn : ∀ p ∈ n.parentPackages, p ∈ names) : IsNested (names ++ [n]) := by
  intro before m after heq p hp
  rcases List.eq_nil_or_concat after with rfl | ⟨after, last, rfl⟩
  · obtain ⟨rfl, hm⟩ := List.append_inj' heq rfl
    cases hm
    exact hn p hp
  · rw [List.concat_eq_append, ← List.cons_append, ← List.append_assoc] at heq
    exact h before m after (List.append_inj' heq rfl).1 p hp

/-- Many names may. -/
theorem IsNested.append (h : IsNested names) {more : List ModuleName}
    (hmore : ∀ n ∈ more, ∀ p ∈ n.parentPackages, p ∈ names) : IsNested (names ++ more) := by
  induction more generalizing names with
  | nil => rwa [List.append_nil]
  | cons n more ih =>
    have hcons := h.concat (hmore n List.mem_cons_self)
    have hrest := ih hcons fun m hm p hp => List.mem_append_left _ (hmore m (List.mem_cons_of_mem _ hm) p hp)
    rwa [List.append_assoc] at hrest

/-- The parent packages of a name are nested, and the name comes last. -/
theorem isNested_parentPackages (n : ModuleName) : IsNested (n.parentPackages ++ [n]) := by
  cases hn : n.package? with
  | none =>
    rw [parentPackages_of_none hn, List.nil_append]
    intro before m after heq p hp
    obtain ⟨rfl, hm⟩ := List.append_eq_singleton_iff.1 heq.symm |>.resolve_right (by simp)
    cases hm
    rw [parentPackages_of_none hn] at hp
    cases hp
  | some package =>
    rw [parentPackages_of_package? hn]
    refine (isNested_parentPackages package).concat fun p hp => ?_
    rwa [parentPackages_of_package? hn] at hp
termination_by n.components.length
decreasing_by
  obtain ⟨last, hlast⟩ := package?_eq_some_iff.1 hn
  simp [hlast]

/-- What is around a package is around everything in it. -/
theorem mem_parentPackages_trans (hq : q ∈ n.parentPackages) (hp : p ∈ q.parentPackages) : p ∈ n.parentPackages := by
  obtain ⟨before, after, hn⟩ := List.append_of_mem hq
  have hsplit : n.parentPackages ++ [n] = before ++ q :: (after ++ [n]) := by
    rw [hn, List.append_assoc, List.cons_append]
  have hbefore := n.isNested_parentPackages before q (after ++ [n]) hsplit p hp
  rw [hn]
  exact List.mem_append_left _ hbefore

end ModuleName

/-! ## What is found around a module -/

namespace FileTree

variable {t : FileTree} {dir : Path}

/-- A name in a directory is looked up after everything else as a package, so a package is found. -/
theorem isSome_locateLeaf_of_isPackage {name : String} (h : t.isPackage (dir.child name) = true) :
    (t.locateLeaf dir name).isSome := by
  have hdirectory : (t.moduleAtDirectory? (dir.child name)).isSome := by
    simp only [moduleAtDirectory?, h, Bool.not_true, Bool.false_eq_true, if_false]
    split <;> rfl
  unfold locateLeaf
  split
  · exact hdirectory
  · simp [hdirectory]

/-- Where a module is found, the packages that its name leads through are found as well. -/
theorem isSome_locateComponents_of_append {names more : List String} (hne : names ≠ [])
    (h : (t.locateComponents dir (names ++ more)).isSome) : (t.locateComponents dir names).isSome := by
  cases more with
  | nil => rwa [List.append_nil] at h
  | cons last more =>
    induction names generalizing dir with
    | nil => exact absurd rfl hne
    | cons name names ih =>
      rw [List.cons_append, locateComponents.eq_3 t dir name _ (by simp)] at h
      split at h
      · cases h
      next hname =>
        simp only [Bool.or_eq_true, beq_iff_eq, Bool.not_eq_true', not_or, Bool.not_eq_false] at hname
        cases names with
        | nil =>
          rw [locateComponents, if_neg (by simpa using hname.1)]
          exact isSome_locateLeaf_of_isPackage hname.2
        | cons next names =>
          rw [locateComponents.eq_3 t dir name _ (by simp), if_neg (by simpa using hname)]
          exact ih (List.cons_ne_nil _ _) h

end FileTree

namespace SearchPath

variable {s : SearchPath} {t : FileTree} {importer : ModuleRecord} {i : ImportStatement} {name package p : ModuleName}

/-- Where a name is found, its parent packages are. -/
theorem isSome_locate_of_parent (h : (s.locate t name).isSome) (hp : p ∈ name.parentPackages) :
    (s.locate t p).isSome := by
  obtain ⟨dir, hdir, hfound⟩ := List.findSome?_isSome_iff.1 h
  obtain ⟨more, hmore⟩ := ModuleName.prefix_of_mem_parentPackages hp
  have hsplit : Text.fields '.' name.text = Text.fields '.' p.text ++ more := hmore.symm
  rw [FileTree.locateIn, hsplit] at hfound
  exact List.findSome?_isSome_iff.2 ⟨dir, hdir,
    FileTree.isSome_locateComponents_of_append p.components_ne_nil hfound⟩

/-- Each package around a module that is found has an edge. -/
theorem names_parentEdges (h : (s.locate t name).isSome) (at_ : SourceRef) :
    (s.parentEdges t name at_).map ImportEdge.name = name.parentPackages := by
  have hall : ∀ parents : List ModuleName, (∀ p ∈ parents, (s.locate t p).isSome) →
      (parents.filterMap fun parent => (s.locate t parent).map fun found =>
        ImportEdge.found parent found.1 found.2 0 at_).map ImportEdge.name = parents := by
    intro parents hparents
    induction parents with
    | nil => rfl
    | cons parent parents ih =>
      obtain ⟨⟨file, kind⟩, hfound⟩ := Option.isSome_iff_exists.1 (hparents parent List.mem_cons_self)
      have hrest := ih fun p hp => hparents p (List.mem_cons_of_mem _ hp)
      simp only [List.filterMap_cons, hfound, Option.map_some, List.map_cons, hrest]
      rfl
  exact hall _ fun p hp => isSome_locate_of_parent h hp

/-- A module that is imported from a package goes by a name in the package. -/
theorem exists_name_of_mem_memberEdges {file : ModuleFile} {at_ : SourceRef} {edge : ImportEdge}
    (h : edge ∈ memberEdges t name file i at_) : ∃ member ∈ i.names, edge.name = name.child member := by
  unfold memberEdges at h
  split at h
  · cases h
  · obtain ⟨member, hmem, h⟩ := List.mem_filterMap.1 h
    obtain ⟨_, _, rfl⟩ := Option.map_eq_some_iff.1 h
    exact ⟨member, hmem, rfl⟩

/-- The package that a relative import starts from is that of the importer, or one around it. -/
theorem mem_of_climb {bound : Nat} {home base : ModuleName × Path} (h : climb bound home = some base) :
    base.1 = home.1 ∨ base.1 ∈ home.1.parentPackages := by
  induction bound generalizing home with
  | zero =>
    cases h
    exact Or.inl rfl
  | succ bound ih =>
    obtain ⟨package, dir⟩ := home
    obtain ⟨outer, houter, h⟩ := Option.bind_eq_some_iff.1 h
    obtain ⟨_, _, h⟩ := Option.bind_eq_some_iff.1 h
    have hmem : outer ∈ package.parentPackages := by
      rw [ModuleName.parentPackages_of_package? houter]
      exact List.mem_concat_self
    rcases ih h with (heq : base.1 = outer) | hin
    · rw [heq]
      exact Or.inr hmem
    · exact Or.inr (ModuleName.mem_parentPackages_trans hmem hin)

end SearchPath

/-! ## Earlier edges -/

/-- A relative import passes through a package on the way from the package that it starts from to the module that it
names. -/
def ImportStatement.PassesThrough (i : ImportStatement) (importer : ModuleRecord) (p : ModuleName) : Prop :=
  i.level ≠ 0 ∧ ∃ home base dir, SearchPath.homePackage? importer = some home ∧
    SearchPath.climb (i.level - 1) home = some (base, dir) ∧ p ∈ (base.child i.path).parentPackages ∧ p ≠ base ∧
      p ∉ base.parentPackages

namespace SearchPath

variable {s : SearchPath} {t : FileTree} {importer : ModuleRecord} {i : ImportStatement} {p : ModuleName}
  {before after : List ImportEdge} {edge : ImportEdge}

/-- Behind an absolute import the packages around a module are all there. -/
theorem exists_earlier_of_absolute {at_ : SourceRef} (hnames : ∀ member ∈ i.names, '.' ∉ member.toList)
    (h : s.resolveAbsolute t i at_ = before ++ edge :: after) (hfound : edge.finding = .found)
    (hp : p ∈ edge.name.parentPackages) : ∃ earlier ∈ before, earlier.name = p := by
  have hmem : edge ∈ before ++ edge :: after := List.mem_append_right _ List.mem_cons_self
  dsimp only [resolveAbsolute] at h
  split at h
  · rw [← h, List.mem_singleton] at hmem
    rw [hmem] at hfound
    cases hfound
  · split at h
    · rw [← h, List.mem_singleton] at hmem
      rw [hmem] at hfound
      cases hfound
    next file kind hloc =>
      have hsome : (s.locate t ⟨i.path⟩).isSome := by rw [hloc]; rfl
      have hnested : ModuleName.IsNested (ModuleName.parentPackages ⟨i.path⟩ ++ [⟨i.path⟩] ++
          (memberEdges t ⟨i.path⟩ file i at_).map ImportEdge.name) := by
        refine (ModuleName.isNested_parentPackages _).append fun n hn q hq => ?_
        obtain ⟨edge, hedge, rfl⟩ := List.mem_map.1 hn
        obtain ⟨member, hmember, hname⟩ := exists_name_of_mem_memberEdges hedge
        rwa [hname, ModuleName.parentPackages_of_package? (ModuleName.package?_child (hnames member hmember))] at hq
      have hsplit := congrArg (List.map ImportEdge.name) h
      simp only [List.map_append, List.map_cons, names_parentEdges hsome] at hsplit
      have hearlier := hnested (before.map ImportEdge.name) edge.name (after.map ImportEdge.name)
        (by rw [← hsplit, List.append_assoc]; rfl) p hp
      exact List.mem_map.1 hearlier

/-- Behind a relative import they are, but for those that it passes through. -/
theorem exists_earlier_iff_of_relative {at_ : SourceRef} (hlevel : i.level ≠ 0)
    (hnames : ∀ member ∈ i.names, '.' ∉ member.toList)
    (h : resolveRelative t importer i at_ = before ++ edge :: after) (hfound : edge.finding = .found)
    (hp : p ∈ edge.name.parentPackages)
    (hown : ∀ home ∈ homePackage? importer, p ≠ home.1 ∧ p ∉ home.1.parentPackages) :
    (∃ earlier ∈ before, earlier.name = p) ↔ ¬ i.PassesThrough importer p := by
  have hmem : edge ∈ before ++ edge :: after := List.mem_append_right _ List.mem_cons_self
  unfold resolveRelative at h
  split at h
  · rw [← h, List.mem_singleton] at hmem
    rw [hmem] at hfound
    cases hfound
  next name dir hbase =>
    obtain ⟨home, hhome, hbase⟩ := Option.bind_eq_some_iff.1 hbase
    obtain ⟨⟨base, dir'⟩, hclimb, hbase⟩ := Option.bind_eq_some_iff.1 hbase
    obtain ⟨rfl, rfl⟩ := Prod.mk.inj (Option.some.inj hbase)
    -- no package around the base is asked for, nor the base itself
    have hoff : p ≠ base ∧ p ∉ base.parentPackages := by
      obtain ⟨hne, hnot⟩ := hown home hhome
      rcases mem_of_climb hclimb with (heq : base = home.1) | hin
      · rw [heq]
        exact ⟨hne, hnot⟩
      · exact ⟨fun heq => hnot (heq ▸ hin), fun hq => hnot (ModuleName.mem_parentPackages_trans hin hq)⟩
    have hthrough : p ∈ ModuleName.parentPackages (if i.path == "" then base else base.child i.path) ↔
        i.PassesThrough importer p := by
      constructor
      · intro hin
        split at hin
        · exact absurd hin hoff.2
        · exact ⟨hlevel, home, base, dir', hhome, hclimb, hin, hoff⟩
      · rintro ⟨_, home', base', dir'', hhome', hclimb', hin, hne, hnot⟩
        obtain rfl := Option.some.inj (hhome.symm.trans hhome')
        obtain ⟨rfl, rfl⟩ := Prod.mk.inj (Option.some.inj (hclimb.symm.trans hclimb'))
        split
        next hempty =>
          rw [beq_iff_eq] at hempty
          rw [hempty, ModuleName.parentPackages_of_package? (ModuleName.package?_child (by decide))] at hin
          rcases List.mem_append.1 hin with hin | hin
          · exact hin
          · exact absurd (List.mem_singleton.1 hin) hne
        next => exact hin
    rw [← hthrough]
    generalize (if i.path == "" then base else base.child i.path) = name at h hthrough ⊢
    split at h
    · rw [← h, List.mem_singleton] at hmem
      rw [hmem] at hfound
      cases hfound
    next file kind _ =>
      constructor
      · rintro ⟨earlier, hearlier, rfl⟩ hin
        have hlt := ModuleName.length_lt_of_mem_parentPackages hin
        have hedges : earlier ∈ ImportEdge.found name file kind i.level at_ :: memberEdges t name file i at_ := by
          rw [h]
          exact List.mem_append_left _ hearlier
        rcases List.mem_cons.1 hedges with rfl | hedges
        · exact absurd hlt (Nat.lt_irrefl _)
        · obtain ⟨member, _, hname⟩ := exists_name_of_mem_memberEdges hedges
          rw [hname, ModuleName.components_child, List.length_append] at hlt
          omega
      · intro hout
        cases before with
        | nil =>
          cases h
          exact absurd hp hout
        | cons first before =>
          obtain ⟨rfl, hrest⟩ := List.cons.inj h
          have hedge : edge ∈ memberEdges t name file i at_ := by
            rw [hrest]
            exact List.mem_append_right _ List.mem_cons_self
          obtain ⟨member, hmember, hname⟩ := exists_name_of_mem_memberEdges hedge
          rw [hname, ModuleName.parentPackages_of_package? (ModuleName.package?_child (hnames member hmember))] at hp
          rcases List.mem_append.1 hp with hp | hp
          · exact absurd hp hout
          · exact ⟨_, List.mem_cons_self, (List.mem_singleton.1 hp).symm⟩

end SearchPath

/-- Among the edges of an import statement, where the names imported from a module are single identifiers: a package around
a module that is found, other than the importer's own package and those around it, is the name of an earlier edge exactly
if the statement is not a relative one that passes through the package. -/
theorem enclosing_is_earlier_iff {s : SearchPath} {t : FileTree} {importer : ModuleRecord} {i : ImportStatement}
    (hnames : ∀ member ∈ i.names, '.' ∉ member.toList) {before after : List ImportEdge} {edge : ImportEdge}
    (h : s.resolve t importer i = before ++ edge :: after) (hfound : edge.finding = .found) {p : ModuleName}
    (hp : p ∈ edge.name.parentPackages)
    (hown : ∀ home ∈ SearchPath.homePackage? importer, p ≠ home.1 ∧ p ∉ home.1.parentPackages) :
    (∃ earlier ∈ before, earlier.name = p) ↔ ¬ i.PassesThrough importer p := by
  dsimp only [SearchPath.resolve] at h
  split at h
  next hlevel =>
    have hzero : i.level = 0 := by simpa using hlevel
    exact iff_of_true (SearchPath.exists_earlier_of_absolute hnames h hfound hp) fun hthrough => hthrough.1 hzero
  next hlevel =>
    exact SearchPath.exists_earlier_iff_of_relative (by simpa using hlevel) hnames h hfound hp hown

/-! ## A module behind two packages -/

/-- A package that holds the module `x` and the package `a`, in which is the package `b` with a module `c`. -/
def FileTree.twoLevels : FileTree :=
  packageOf [["x.py"], ["a", initEntry], ["a", "b", initEntry], ["a", "b", "c.py"]]

/-- The module `x` of this package. -/
def ModuleRecord.memberX : ModuleRecord := ⟨⟨"pkg.x"⟩, ⟨⟨"/w/pkg/x.py"⟩⟩, .source, false, false, none⟩

/-- Imported relatively, `pkg.a.b` is there before its member, but nothing is there before it. -/
theorem enclosing_is_earlier_iff_twoLevels :
    ∃ outer inner,
      (SearchPath.ofDirs ⟨"/w"⟩ [⟨"/w"⟩] []).resolve .twoLevels .memberX ⟨"a.b", 1, ["c"], 1⟩ = [outer, inner] ∧
      ¬ ImportStatement.PassesThrough ⟨"a.b", 1, ["c"], 1⟩ .memberX ⟨"pkg.a.b"⟩ ∧
      ImportStatement.PassesThrough ⟨"a.b", 1, ["c"], 1⟩ .memberX ⟨"pkg.a"⟩ := by
  have hnames : ∀ member ∈ ["c"], '.' ∉ member.toList := by decide
  have hedges : (SearchPath.ofDirs ⟨"/w"⟩ [⟨"/w"⟩] []).resolve .twoLevels .memberX ⟨"a.b", 1, ["c"], 1⟩ =
      [.found ⟨"pkg.a.b"⟩ ⟨⟨"/w/pkg/a/b/__init__.py"⟩⟩ .source 1 ⟨⟨"/w/pkg/x.py"⟩, 1⟩,
        .found ⟨"pkg.a.b.c"⟩ ⟨⟨"/w/pkg/a/b/c.py"⟩⟩ .source 1 ⟨⟨"/w/pkg/x.py"⟩, 1⟩] := by decide +kernel
  have hhome : ∀ p ∈ [(⟨"pkg.a"⟩ : ModuleName), ⟨"pkg.a.b"⟩], ∀ home ∈ SearchPath.homePackage? .memberX,
      p ≠ home.1 ∧ p ∉ home.1.parentPackages := by decide +kernel
  have hinner := enclosing_is_earlier_iff (p := ⟨"pkg.a.b"⟩) hnames (hedges.trans (List.singleton_append).symm) rfl
    (by decide +kernel) (hhome _ (by simp))
  have houter := enclosing_is_earlier_iff (p := ⟨"pkg.a"⟩) hnames (hedges.trans (List.nil_append _).symm) rfl
    (by decide +kernel) (hhome _ (by simp))
  refine ⟨_, _, hedges, hinner.1 ⟨_, List.mem_cons_self, rfl⟩, not_not.1 fun hnot => ?_⟩
  obtain ⟨_, hearlier, _⟩ := houter.2 hnot
  cases hearlier

/-- The package `pkg.a` can be found, and has no edge. -/
theorem enclosing_left_out :
    ∃ edge ∈ (SearchPath.ofDirs ⟨"/w"⟩ [⟨"/w"⟩] []).resolve .twoLevels .memberX ⟨"a.b", 1, [], 1⟩,
      edge.finding = .found ∧ ⟨"pkg.a"⟩ ∈ edge.name.parentPackages ∧
        SearchPath.homePackage? .memberX = some (⟨"pkg"⟩, ⟨"/w/pkg"⟩) ∧
        (FileTree.twoLevels.locateIn ⟨"/w"⟩ "pkg.a").isSome ∧
        ∀ other ∈ (SearchPath.ofDirs ⟨"/w"⟩ [⟨"/w"⟩] []).resolve .twoLevels .memberX ⟨"a.b", 1, [], 1⟩,
          other.name ≠ ⟨"pkg.a"⟩ := by
  have hedges : (SearchPath.ofDirs ⟨"/w"⟩ [⟨"/w"⟩] []).resolve .twoLevels .memberX ⟨"a.b", 1, [], 1⟩ =
      [.found ⟨"pkg.a.b"⟩ ⟨⟨"/w/pkg/a/b/__init__.py"⟩⟩ .source 1 ⟨⟨"/w/pkg/x.py"⟩, 1⟩] := by decide +kernel
  rw [hedges]
  refine ⟨_, List.mem_cons_self, rfl, by decide +kernel, by decide +kernel, by decide +kernel, ?_⟩
  intro other hother
  rw [List.mem_singleton.1 hother]
  decide +kernel

end ImportClosure
