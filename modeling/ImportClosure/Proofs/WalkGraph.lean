import ImportClosure.Proofs.Graph
import ImportClosure.Proofs.Matched
import ImportClosure.Proofs.Members

/-!
# What a walk leads to

Over a table, what an item of a walk opens does not depend on the session: a package that is included and can be built
opens its members (`Engine.Opens`). So the modules that a walk leads to are those of a graph (`Engine.Reaches`). Whatever an
item opens weighs less than the item (`Engine.Opens.sum_weight_lt`), which bounds the walk.
-/

namespace ImportClosure

/-- The name is that of a package. -/
def ModuleTable.HasPackage (table : ModuleTable) (name : ModuleName) : Prop :=
  ∃ row, table.lookup name = some row ∧ row.isPackage = true

namespace WalkItem

/-- A path is not written with two slashes at the root. -/
def IsPlain : WalkItem → Prop
  | .single p _ | .path p _ => p.rootText = "/"
  | .pattern _ => True

instance : DecidablePred IsPlain
  | .single p _ | .path p _ => inferInstanceAs (Decidable (p.rootText = "/"))
  | .pattern _ => inferInstanceAs (Decidable True)

/-- The item is a single file or package directory. -/
def isSingle : WalkItem → Bool
  | .single .. => true
  | _ => false

end WalkItem

/-! ## Files of queries -/

namespace FileTree

variable {t : FileTree} {path : Path} {package : Option ModuleName} {q : Query}

theorem file_of_query? (h : t.query? path package = some q) : q.file = .ofPath t.workDir path := by
  obtain ⟨_, _, rfl⟩ := Option.map_eq_some_iff.1 h
  rfl

/-- A path that asks about a module is not empty. -/
theorem text_ne_of_query? (h : t.query? path package = some q) : path.text ≠ "" := by
  intro htext
  obtain ⟨found, hfound, _⟩ := Option.map_eq_some_iff.1 h
  have hempty : ModuleFile.ofPath t.workDir path = ⟨⟨""⟩⟩ := by
    rcases path with ⟨text⟩
    obtain rfl : text = "" := htext
    rfl
  rw [hempty] at hfound
  obtain ⟨name, hname, _⟩ := Option.bind_eq_some_iff.1 hfound
  rw [show Path.fileName ⟨""⟩ = none by decide] at hname
  cases hname

/-- What is asked about is a plain file from the root. -/
theorem IsWellFormed.file_of_query? (ht : t.IsWellFormed) (hpath : path.rootText = "/")
    (h : t.query? path package = some q) : q.file.path.isAbsolute = true ∧ q.file.path.IsPlain := by
  rw [FileTree.file_of_query? h]
  exact ⟨ModuleFile.isAbsolute_ofPath ht.isAbsolute (text_ne_of_query? h), ht.isPlain.absolute ht.isAbsolute hpath⟩

/-- The number of modules that walking a path may lead to, itself included. -/
def weight (t : FileTree) : WalkItem → Nat
  | .single path _ => 1 + t.below (ModuleFile.ofPath t.workDir path).place
  | _ => 1

theorem weight_le (t : FileTree) (item : WalkItem) : t.weight item ≤ t.size + 1 := by
  cases item with
  | single path package =>
    have := t.below_le_size (ModuleFile.ofPath t.workDir path).place
    simp only [weight]
    omega
  | _ => simp [weight]

theorem weight_pos (t : FileTree) (item : WalkItem) : 0 < t.weight item := by
  cases item <;> simp only [weight] <;> omega

/-- What a walk may come to bounds its first items. -/
theorem sum_weight_le (t : FileTree) (items : List WalkItem) :
    (items.map t.weight).sum ≤ items.length * (t.size + 2) + 1 := by
  have hsum : (items.map t.weight).sum ≤ (items.map t.weight).length * (t.size + 1) :=
    List.sum_le_card_nsmul _ _ fun n hn => by
      obtain ⟨item, _, rfl⟩ := List.mem_map.1 hn
      exact t.weight_le item
  have hle : items.length * (t.size + 1) ≤ items.length * (t.size + 2) := Nat.mul_le_mul_left _ (by omega)
  rw [List.length_map] at hsum
  omega

/-- What an item of a walk leaves: single files and package directories. If the item is one itself, they weigh less. -/
structure Lighter (t : FileTree) (item : WalkItem) (children : List WalkItem) : Prop where
  isSingle : ∀ child ∈ children, child.isSingle = true
  sum_lt : item.isSingle = true → (children.map t.weight).sum < t.weight item

theorem Lighter.nil (t : FileTree) (item : WalkItem) : t.Lighter item [] where
  isSingle _ hmem := nomatch hmem
  sum_lt _ := t.weight_pos item

theorem isSingle_of_opened {children : List WalkItem} (h : t.opened path package = .ok children) :
    ∀ child ∈ children, child.isSingle = true := by
  intro child hmem
  rcases opened_eq_ok h with ⟨_, rfl⟩ | rfl | ⟨names, _, rfl⟩
  · rw [List.mem_singleton.1 hmem]
    rfl
  · cases hmem
  · obtain ⟨_, _, rfl⟩ := List.mem_map.1 hmem
    rfl

theorem isSingle_of_matched {text : String} {children : List WalkItem} (h : t.matched text = .ok children) :
    ∀ child ∈ children, child.isSingle = true := by
  intro child hmem
  obtain ⟨_, _, hmatches⟩ := matched_eq_ok h
  obtain ⟨_, _, _, rfl⟩ := hmatches child hmem
  rfl

end FileTree

namespace Engine

variable {σ : Type}

/-- The policy includes the module that a query is about, and the table can build it. -/
def Admits (e : Engine σ) (table : ModuleTable) (q : Query) : Prop :=
  (e.policy.decide q).isIncluded = true ∧ table.Builds q.name

/-- What an item of a walk leaves to be walked. The directory of a package may be written in different ways. -/
inductive Opens (e : Engine σ) (table : ModuleTable) : WalkItem → List WalkItem → Prop where
  /-- There is no package that is admitted. -/
  | nothing {path : Path} {package : Option ModuleName}
      (h : ∀ q, e.tree.query? path package = some q → e.Admits table q → ¬ table.HasPackage q.name) :
      Opens e table (.single path package) []
  /-- There is one, with these members. -/
  | package {path : Path} {package : Option ModuleName} {q : Query} {dir : Path} {names : List String}
      (hq : e.tree.query? path package = some q) (ha : e.Admits table q) (hp : table.HasPackage q.name)
      (hplain : dir.IsPlain) (habs : dir.isAbsolute = true) (hdir : dir.components = q.file.place)
      (hl : e.tree.list dir = .ok names) :
      Opens e table (.single path package)
        ((names.filter (isMember e.tree dir)).map fun name => .single (dir.child name) (some q.name))
  | path {path : Path} {package : Option ModuleName} {children : List WalkItem}
      (h : e.tree.opened path package = .ok children) : Opens e table (.path path package) children
  | pattern {text : String} {children : List WalkItem} (h : e.tree.matched text = .ok children) :
      Opens e table (.pattern text) children

/-- Walking an item leads to a module that a query is about. -/
inductive Reaches (e : Engine σ) (table : ModuleTable) : WalkItem → Query → Prop where
  | here {path : Path} {package : Option ModuleName} {q : Query} (hq : e.tree.query? path package = some q)
      (ha : e.Admits table q) : Reaches e table (.single path package) q
  | inside {item child : WalkItem} {children : List WalkItem} {q : Query} (ho : e.Opens table item children)
      (hc : child ∈ children) (hr : Reaches e table child q) : Reaches e table item q

variable {e strict lenient : Engine σ} {table : ModuleTable} {item : WalkItem} {children children' : List WalkItem}
  {path : Path} {package : Option ModuleName}

/-! ## Two engines over one tree -/

/-- Where two engines open an item of the same tree, the one that admits more opens more. -/
theorem Opens.subset (htree : strict.tree = lenient.tree) (hadmits : ∀ q, strict.Admits table q → lenient.Admits table q)
    (ht : lenient.tree.IsWellFormed) (h : strict.Opens table item children) (h' : lenient.Opens table item children') :
    children ⊆ children' := by
  cases h with
  | nothing => exact List.nil_subset _
  | @package path package q dir names hq ha hp hplain habs hdir hl =>
    rw [htree] at hq hl
    cases h' with
    | nothing hno => exact absurd hp (hno q hq (hadmits q ha))
    | @package _ _ q' dir' names' hq' _ _ hplain' habs' hdir' hl' =>
      obtain rfl : q = q' := Option.some.inj (hq.symm.trans hq')
      have hcomp : dir.components = dir'.components := hdir.trans hdir'.symm
      obtain rfl : names = names' := FileTree.list_eq_of_components habs habs' hcomp hl hl'
      have hchild : ∀ name ∈ names, dir.child name = dir'.child name := fun name hname =>
        hplain.child_eq hplain' habs hcomp habs' ((ht.names_of_list hl).2 name hname).1.1
      intro child hmem
      obtain ⟨name, hname, rfl⟩ := List.mem_map.1 hmem
      obtain ⟨hname, hmember⟩ := List.mem_filter.1 hname
      refine List.mem_map.2 ⟨name, List.mem_filter.2 ⟨hname, ?_⟩, ?_⟩
      · rw [htree] at hmember
        rwa [isMember, ← hchild name hname]
      · rw [hchild name hname]
  | path h =>
    cases h' with
    | path h' =>
      rw [htree, h'] at h
      cases h
      exact List.Subset.refl _
  | pattern h =>
    cases h' with
    | pattern h' =>
      rw [htree, h'] at h
      cases h
      exact List.Subset.refl _

/-- The engine that admits more reaches more. -/
theorem Reaches.mono (htree : strict.tree = lenient.tree) (hadmits : ∀ q, strict.Admits table q → lenient.Admits table q)
    {q : Query} (h : strict.Reaches table item q) : lenient.Reaches table item q := by
  induction h with
  | here hq ha => exact .here (htree ▸ hq) (hadmits _ ha)
  | inside ho hc _ ih =>
    cases ho with
    | nothing => cases hc
    | package hq ha hp hplain habs hdir hl =>
      exact .inside (.package (htree ▸ hq) (hadmits _ ha) hp hplain habs hdir (htree ▸ hl)) (htree ▸ hc) ih
    | path h => exact .inside (.path (htree ▸ h)) hc ih
    | pattern h => exact .inside (.pattern (htree ▸ h)) hc ih

/-! ## What is opened -/

/-- Only single files and package directories are opened. -/
theorem Opens.isSingle (h : e.Opens table item children) : ∀ child ∈ children, child.isSingle = true := by
  intro child hmem
  cases h with
  | nothing => cases hmem
  | package =>
    obtain ⟨_, _, rfl⟩ := List.mem_map.1 hmem
    rfl
  | path h => exact FileTree.isSingle_of_opened h child hmem
  | pattern h => exact FileTree.isSingle_of_matched h child hmem

/-- What is opened by an item with one slash at the root has one as well. -/
theorem Opens.isPlain (ht : e.tree.IsWellFormed) (hitem : item.IsPlain) (h : e.Opens table item children) :
    ∀ child ∈ children, child.IsPlain := by
  intro child hmem
  cases h with
  | nothing => cases hmem
  | package hq ha hp hplain habs hdir hl =>
    obtain ⟨name, hname, rfl⟩ := List.mem_map.1 hmem
    have hchild := hplain.child habs ((ht.names_of_list hl).2 name (List.mem_filter.1 hname).1).1
    exact hchild.rootText_eq
  | @path path _ _ h =>
    rcases FileTree.opened_eq_ok h with ⟨_, rfl⟩ | rfl | ⟨names, hl, rfl⟩
    · rw [List.mem_singleton.1 hmem]
      exact hitem
    · cases hmem
    · obtain ⟨name, hname, rfl⟩ := List.mem_map.1 hmem
      have hstep := ((ht.names_of_list hl).2 name (List.mem_filter.1 hname).1).1
      have hpath : path.rootText = "/" := hitem
      exact Path.rootText_child hpath hstep.1
  | pattern h =>
    obtain ⟨_, hread, hmatches⟩ := FileTree.matched_eq_ok h
    obtain ⟨p, hp, _, rfl⟩ := hmatches child hmem
    exact FileTree.rootText_of_mem_matching ht hread hp

/-- A member of a package directory is a module at its own place. -/
theorem place_of_isMember {t : FileTree} (ht : t.IsWellFormed) {dir : Path} {name : String} (habs : dir.isAbsolute = true)
    (hn : Path.IsStep name ∧ name ≠ "..") (hm : isMember t dir name = true) :
    (ModuleFile.ofPath t.workDir (dir.child name)).place = (dir.child name).components := by
  have hinit : name ≠ initEntry := by
    rintro rfl
    simp [isMember] at hm
  rw [ModuleFile.place_child ht.isAbsolute habs hn.1 hn.2 hinit, Path.components_child_eq habs hn.1 hn.2]

/-- The members of a package directory weigh no more than what is below it. -/
theorem sum_weight_members_le {t : FileTree} (ht : t.IsWellFormed) {dir : Path} {names : List String}
    (habs : dir.isAbsolute = true) (hl : t.list dir = .ok names) (package : Option ModuleName) :
    (((names.filter (isMember t dir)).map fun name => .single (dir.child name) package).map t.weight).sum ≤
      t.below dir.components := by
  have hweight : ∀ name ∈ names.filter (isMember t dir),
      t.weight (.single (dir.child name) package) = 1 + t.below (dir.child name).components := by
    intro name hname
    obtain ⟨hname, hmember⟩ := List.mem_filter.1 hname
    rw [FileTree.weight, place_of_isMember ht habs ((ht.names_of_list hl).2 name hname) hmember]
  have hsum := ht.sum_below_le habs hl (isMember t dir)
  have hmap := congrArg List.sum (List.map_congr_left hweight)
  rw [List.map_map]
  simp only [Function.comp_def]
  omega

/-- What is left of a package weighs less than a path to it, if there is no more below its own place than below that of the
path. -/
theorem Registered.lighter (ht : e.tree.IsWellFormed) {m : ModuleRecord} (h : e.Registered m children)
    (habs : m.isPackage = true → m.file.identity.isAbsolute = true)
    (hbelow : e.tree.below m.file.place ≤ e.tree.below (ModuleFile.ofPath e.tree.workDir path).place) :
    e.tree.Lighter (.single path package) children := by
  rcases h with ⟨_, rfl⟩ | ⟨hp, names, hl, rfl⟩
  · exact .nil _ _
  · refine ⟨fun child hmem => ?_, fun _ => ?_⟩
    · obtain ⟨_, _, rfl⟩ := List.mem_map.1 hmem
      rfl
    · have hmembers := sum_weight_members_le ht (habs hp) hl (some m.name)
      have hidentity : e.tree.below m.file.identity.components = e.tree.below m.file.place := rfl
      rw [FileTree.weight]
      omega

/-- What a path opens weighs less than the path. -/
theorem Opens.sum_weight_lt (ht : e.tree.IsWellFormed) (h : e.Opens table (.single path package) children) :
    (children.map e.tree.weight).sum < e.tree.weight (.single path package) := by
  cases h with
  | nothing => exact e.tree.weight_pos _
  | @package _ _ q dir names hq ha hp hplain habs hdir hl =>
    have hmembers := sum_weight_members_le ht habs hl (some q.name)
    rw [FileTree.weight, ← FileTree.file_of_query? hq, ← hdir]
    omega

end Engine

end ImportClosure
