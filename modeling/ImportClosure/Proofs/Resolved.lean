import ImportClosure.Builder.Source
import ImportClosure.Proofs.Located

/-!
# What import statements resolve to

An absolute import is followed under a name out of the statement. A relative one is followed under the name of a package
around the importer with components of the statement behind it; package and directory go up together
(`SearchPath.climb_spec`), and the module lies as many steps below the directory as there are components
(`SearchPath.exists_of_mem_resolveRelative`). So the name of a module that relative imports lead to is longer than its
place by no more than the name of the importer is.
-/

namespace ImportClosure

/-! ## Names -/

namespace ModuleName

variable {n p : ModuleName}

theorem components_child (package : ModuleName) (name : String) :
    (package.child name).components = package.components ++ Text.fields '.' name :=
  Text.fields_append (show ".".toList = ['.'] from rfl) package.text name

/-- The enclosing package has all components but the last. -/
theorem components_package? (h : n.package? = some p) : p.components = n.components.dropLast := by
  unfold package? at h
  split at h
  · cases h
  · cases h
  next hnil hone =>
    cases h
    have hne : n.components.dropLast ≠ [] := by
      intro he
      rcases hc : n.components with _ | ⟨a, _ | ⟨b, more⟩⟩
      · exact hnil hc
      · exact hone a hc
      · simp [hc] at he
    exact Text.fields_unfields hne fun f hf => Text.not_mem_of_mem_fields (List.dropLast_subset _ hf)

theorem components_ne_nil (n : ModuleName) : n.components ≠ [] := by
  simp [components, Text.fields, Text.split_ne_nil]

/-- Every name has a last component. -/
theorem exists_components_eq_concat (n : ModuleName) : ∃ front x, n.components = front ++ [x] :=
  ⟨_, _, (List.dropLast_concat_getLast n.components_ne_nil).symm⟩

/-- A name is put together from its components. -/
theorem eq_of_components (h : n.components = p.components) : n = p := by
  have htext := congrArg (Text.unfields '.') h
  rw [components, components, Text.unfields_fields, Text.unfields_fields] at htext
  cases n
  cases p
  exact congrArg mk htext

/-- The enclosing package is the name without its last component. -/
theorem package?_eq_some_iff : n.package? = some p ↔ ∃ last, n.components = p.components ++ [last] := by
  constructor
  · intro h
    have hne := n.components_ne_nil
    exact ⟨n.components.getLast hne, by rw [components_package? h, List.dropLast_concat_getLast hne]⟩
  · rintro ⟨last, h⟩
    cases hp : n.package? with
    | some q =>
      refine congrArg some (eq_of_components ?_)
      rw [components_package? hp, h, List.dropLast_concat]
    | none =>
      -- a name without a package has one component only, and that of `p` is not empty
      have hlen := List.length_pos_iff.2 p.components_ne_nil
      unfold package? at hp
      rcases hn : n.components with _ | ⟨a, _ | ⟨b, more⟩⟩ <;> rw [hn] at h hp
      · exact absurd h (by simp)
      · have hone := congrArg List.length h
        simp only [List.length_append, List.length_singleton] at hone
        omega
      · simp at hp

/-- A name without a dot lies in the package itself, however many components the package has. -/
theorem package?_child {member : String} (h : '.' ∉ member.toList) : (n.child member).package? = some n :=
  package?_eq_some_iff.2 ⟨member, by rw [components_child, Text.fields_of_not_mem h]⟩

theorem prefix_of_mem_enclosingUpTo {bound : Nat} (h : p ∈ enclosingUpTo bound n) :
    p.components <+: n.components := by
  induction bound generalizing n with
  | zero => cases h
  | succ bound ih =>
    unfold enclosingUpTo at h
    split at h
    · cases h
    next package hp =>
      have hpre : package.components <+: n.components := components_package? hp ▸ List.dropLast_prefix _
      rcases List.mem_cons.1 h with rfl | h
      · exact hpre
      · exact (ih h).trans hpre

/-- The packages around a name begin like it. -/
theorem prefix_of_mem_parentPackages (h : p ∈ n.parentPackages) : p.components <+: n.components :=
  prefix_of_mem_enclosingUpTo (List.mem_reverse.1 h)

end ModuleName

namespace ImportStatement

/-- The components of all dotted names in a statement. -/
def components (i : ImportStatement) : List String :=
  Text.fields '.' i.path ++ i.names.flatMap (Text.fields '.')

/-- Whether the dotted names of a statement lead down from the directory of a package, if they are looked up there. -/
def leadsDown (i : ImportStatement) : Bool :=
  i.level == 0 || (i.path :: i.names).all FileTree.leadsDown

theorem fields_sublist {i : ImportStatement} {member : String} (h : member ∈ i.names) :
    (Text.fields '.' member).Sublist (i.names.flatMap (Text.fields '.')) := by
  rw [List.flatMap_def]
  exact List.sublist_flatten_of_mem (List.mem_map_of_mem h)

end ImportStatement

/-- The target of a request: the file itself, which is no package, or a package that is backed by the file or by the init
entry in it. -/
theorem BuildRequest.target_spec (r : BuildRequest) (t : FileTree) :
    ((r.target t).1 = { name := r.name, file := r.file, kind := r.kind, isTop := r.isTop } ∧
        r.file.isInitEntry = false) ∨
      ((r.target t).1.isPackage = true ∧ (r.target t).1.name = r.name ∧ ((r.target t).1.file = r.file ∨
        t.isFile (r.file.path.child initEntry) = true ∧
          (r.target t).1.file = .ofPath t.workDir (r.file.path.child initEntry))) := by
  unfold target
  by_cases hd : t.isDir r.file.path
  · by_cases hi : t.hasInitEntry r.file.path
    · simp only [hd, hi, if_true]
      exact Or.inr ⟨trivial, trivial, Or.inr ⟨hi, trivial⟩⟩
    · simp [hd, hi]
  · by_cases hi : r.file.isInitEntry <;> simp [hd, hi]

namespace SearchPath

variable {t : FileTree} {i : ImportStatement} {edge : ImportEdge} {f : ModuleFile}

/-! ## Members of packages -/

/-- What is imported from a package is a module below its directory, under the name of the package. -/
theorem exists_of_mem_memberEdges {name : ModuleName} {package : ModuleFile} {at_ : SourceRef}
    (h : edge ∈ memberEdges t name package i at_) (hf : edge.file = some f) :
    ∃ dir member kind, packageDir? t package = some dir ∧ member ∈ i.names ∧ edge.name = name.child member ∧
      t.locateIn dir member = some (f, kind) := by
  unfold memberEdges at h
  split at h
  · cases h
  next dir hdir =>
    obtain ⟨member, hmem, h⟩ := List.mem_filterMap.1 h
    obtain ⟨⟨file, kind⟩, hloc, rfl⟩ := Option.map_eq_some_iff.1 h
    cases hf
    exact ⟨dir, member, kind, hdir, hmem, rfl, hloc⟩

/-! ## Absolute imports -/

/-- An absolute import leads to modules of the tree under names out of the statement. -/
theorem of_mem_resolveAbsolute {s : SearchPath} {at_ : SourceRef} (h : edge ∈ s.resolveAbsolute t i at_)
    (hf : edge.file = some f) : t.Has f ∧ edge.name.components.Sublist i.components := by
  dsimp only [resolveAbsolute] at h
  split at h
  · obtain rfl := List.mem_singleton.1 h
    cases hf
  · split at h
    · obtain rfl := List.mem_singleton.1 h
      cases hf
    next file kind hloc =>
      rcases List.mem_append.1 h with h | h
      · obtain ⟨parent, hparent, h⟩ := List.mem_filterMap.1 h
        obtain ⟨⟨file, kind⟩, hloc, rfl⟩ := Option.map_eq_some_iff.1 h
        cases hf
        exact ⟨FileTree.has_of_locate hloc,
          (ModuleName.prefix_of_mem_parentPackages hparent).sublist.trans (List.sublist_append_left _ _)⟩
      · rcases List.mem_cons.1 h with rfl | h
        · cases hf
          exact ⟨FileTree.has_of_locate hloc, List.sublist_append_left _ _⟩
        · obtain ⟨dir, member, kind', _, hmem, hname, hloc'⟩ := exists_of_mem_memberEdges h hf
          refine ⟨FileTree.has_of_locateComponents hloc', ?_⟩
          rw [hname, ModuleName.components_child]
          exact (List.Sublist.refl _).append (ImportStatement.fields_sublist hmem)

/-! ## Relative imports -/

/-- Package and directory go up together: the name does not become longer, measured by the directory. -/
theorem climb_spec {n : Nat} {package q : ModuleName} {dir e : Path} (h : climb n (package, dir) = some (q, e)) :
    q.components <+: package.components ∧ (dir.isAbsolute = true → e.isAbsolute = true ∧
      ∀ extra, package.components.length ≤ dir.components.length + extra →
        q.components.length ≤ e.components.length + extra) := by
  induction n generalizing package dir with
  | zero =>
    cases h
    exact ⟨List.prefix_refl _, fun ha => ⟨ha, fun _ => id⟩⟩
  | succ n ih =>
    obtain ⟨p, hp, h⟩ := Option.bind_eq_some_iff.1 h
    obtain ⟨d, hd, h⟩ := Option.bind_eq_some_iff.1 h
    obtain ⟨hpre, hdeep⟩ := ih h
    have hcomp := ModuleName.components_package? hp
    refine ⟨hpre.trans (hcomp ▸ List.dropLast_prefix _), fun ha => ?_⟩
    obtain ⟨he, hle⟩ := hdeep (Path.isAbsolute_parent? hd ha)
    refine ⟨he, fun extra hextra => hle extra ?_⟩
    rw [hcomp, Path.components_parent? hd, List.length_dropLast, List.length_dropLast]
    omega

/-- The package that relative imports of a module start from, with its directory: those of the request that the module
was built for, or one step further up. -/
theorem homePackage?_spec {r : BuildRequest} {q : ModuleName} {e : Path} (hw : t.workDir.isAbsolute = true)
    (h : homePackage? (r.target t).1 = some (q, e)) :
    q.components <+: r.name.components ∧ (r.file.path.isAbsolute = true → e.isAbsolute = true ∧
      ∀ extra, r.name.components.length ≤ r.file.place.length + extra →
        q.components.length ≤ e.components.length + extra) := by
  rcases r.target_spec t with ⟨hm, hi⟩ | ⟨hp, hname, hfile⟩
  · rw [hm] at h
    obtain ⟨p, hp, h⟩ := Option.bind_eq_some_iff.1 h
    obtain ⟨d, hd, h⟩ := Option.bind_eq_some_iff.1 h
    cases h
    have hd : r.file.path.parent? = some e := hd
    have hcomp := ModuleName.components_package? (n := r.name) hp
    refine ⟨hcomp ▸ List.dropLast_prefix _, fun ha => ⟨Path.isAbsolute_parent? hd ha, fun extra hextra => ?_⟩⟩
    have hplace := r.file.length_place_le
    rw [hcomp, Path.components_parent? hd, List.length_dropLast, List.length_dropLast]
    omega
  · rw [homePackage?, if_pos hp, hname] at h
    cases h
    refine ⟨List.prefix_refl _, fun ha => ?_⟩
    rcases hfile with hfile | ⟨hinit, hfile⟩
    · rw [hfile]
      exact ⟨ModuleFile.isAbsolute_identity ha, fun _ => id⟩
    · have hchild := Path.isAbsolute_child ha initEntry
      have habs := ModuleFile.isAbsolute_ofPath hw (ModuleFile.text_ne_nil_of_isAbsolute hchild)
      have hdeep := (FileTree.DirectoryModule.entry hinit).length_le hw ha
      have hplace := r.file.length_place_le
      rw [hfile]
      refine ⟨ModuleFile.isAbsolute_identity habs, fun extra hextra => ?_⟩
      exact Nat.le_trans hextra (Nat.add_le_add_right (Nat.le_trans hplace hdeep) extra)

/-- What a relative import leads to: a module that lies as many steps below the directory of a package as there are
components of the statement behind the name of the package. -/
theorem exists_of_mem_resolveRelative {importer : ModuleRecord} {at_ : SourceRef} (hw : t.workDir.isAbsolute = true)
    (hdown : ∀ word ∈ i.path :: i.names, FileTree.leadsDown word = true)
    (h : edge ∈ resolveRelative t importer i at_) (hf : edge.file = some f) :
    ∃ home package dir behind, homePackage? importer = some home ∧ climb (i.level - 1) home = some (package, dir) ∧
      t.Has f ∧ behind.Sublist i.components ∧ edge.name.components = package.components ++ behind ∧
      (dir.isAbsolute = true → dir.components.length + behind.length ≤ f.place.length) := by
  unfold resolveRelative at h
  split at h
  · obtain rfl := List.mem_singleton.1 h
    cases hf
  next name dir hbase =>
    obtain ⟨home, hhome, hbase⟩ := Option.bind_eq_some_iff.1 hbase
    obtain ⟨⟨package, dir'⟩, hclimb, hbase⟩ := Option.bind_eq_some_iff.1 hbase
    cases hbase
    -- the module that the path of the statement leads to
    have hpath : ∀ file kind, (if i.path == "" then t.moduleAtDirectory? dir else t.locateIn dir i.path) =
        some (file, kind) → t.Has file ∧ ∃ behind, behind.Sublist (Text.fields '.' i.path) ∧
          (if i.path == "" then package else package.child i.path).components = package.components ++ behind ∧
          (dir.isAbsolute = true → dir.components.length + behind.length ≤ file.place.length) := by
      intro file kind hloc
      split at hloc
      next he =>
        obtain ⟨p, hfile, hp⟩ := FileTree.directoryModule hloc
        refine ⟨⟨p, hp.exists?, hfile⟩, [], List.nil_sublist _, by simp [he], fun ha => ?_⟩
        rw [hfile]
        exact hp.length_le hw ha
      next he =>
        refine ⟨FileTree.has_of_locateComponents hloc, _, List.Sublist.refl _, ?_, fun ha => ?_⟩
        · rw [if_neg he, ModuleName.components_child]
        · exact FileTree.length_of_locateIn hw ha (hdown _ List.mem_cons_self) hloc
    split at h
    · obtain rfl := List.mem_singleton.1 h
      cases hf
    next file kind hloc =>
      obtain ⟨hhas, behind, hsub, hcomp, hdeep⟩ := hpath file kind hloc
      rcases List.mem_cons.1 h with rfl | h
      · cases hf
        exact ⟨home, package, dir, behind, hhome, hclimb, hhas, hsub.trans (List.sublist_append_left _ _), hcomp, hdeep⟩
      · obtain ⟨sub, member, kind', hsubdir, hmem, hname, hloc'⟩ := exists_of_mem_memberEdges h hf
        refine ⟨home, package, dir, behind ++ Text.fields '.' member, hhome, hclimb,
          FileTree.has_of_locateComponents hloc', hsub.append (ImportStatement.fields_sublist hmem), ?_, fun ha => ?_⟩
        · rw [hname, ModuleName.components_child, hcomp, List.append_assoc]
        · obtain ⟨habs, hlen⟩ := FileTree.packageDir?_spec (FileTree.isAbsolute_of_has hw hhas) hsubdir
          have hstep := FileTree.length_of_locateIn hw habs (hdown _ (List.mem_cons_of_mem _ hmem)) hloc'
          have hfirst := hdeep ha
          rw [List.length_append]
          omega

end SearchPath

end ImportClosure
