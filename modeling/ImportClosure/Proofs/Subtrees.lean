import ImportClosure.Proofs.Plain
import Mathlib.Algebra.GroupWithZero.Nat
import Mathlib.Algebra.Order.BigOperators.Group.List
import Mathlib.Algebra.Order.Group.Nat
import Mathlib.Data.List.Nodup

/-!
# Subtrees

In a tree as a disk can hold it, at most one thing stands at a place, and the names on the way to it are steps
(`FileTree.IsWellFormed`). Where a path leads to follows from its steps, if it leads anywhere. The names in a directory
have disjoint subtrees, so all of them together have no more in them than the directory
(`FileTree.IsWellFormed.sum_below_le`): that is what lets a walk down from a directory end.
-/

namespace ImportClosure

namespace FileTree

/-- A tree as a disk can hold it. -/
structure IsWellFormed (t : FileTree) : Prop where
  isAbsolute : t.workDir.isAbsolute = true
  isPlain : t.workDir.IsPlain
  nodup : (t.entries.map Prod.fst).Nodup
  names : ∀ place ∈ t.entries.map Prod.fst, ∀ name ∈ place, Path.IsStep name ∧ name ≠ ".."

variable {t : FileTree} {place place' : Place} {p q : Path} {names : List String}

/-! ## Trees that are put together -/

theorem isWellFormed_empty {w : Path} (habs : w.isAbsolute = true) (hw : w.IsPlain) : (empty w).IsWellFormed where
  isAbsolute := habs
  isPlain := hw
  nodup := List.nodup_nil
  names := by simp [empty]

/-- Where nothing stands there is no entry. -/
theorem not_mem_of_content? (h : (t.content? place).isSome = false) : place ∉ t.entries.map Prod.fst := by
  unfold content? at h
  split at h
  · cases h
  · intro hmem
    obtain ⟨entry, hentry, rfl⟩ := List.mem_map.1 hmem
    have hnone : t.entries.lookup entry.1 = none := by simpa using h
    rw [List.lookup_eq_none_iff] at hnone
    exact absurd (hnone entry hentry) (by simp)

theorem IsWellFormed.addNew (ht : t.IsWellFormed) (c : Content) (hplace : ∀ name ∈ place, Path.IsStep name ∧ name ≠ "..") :
    (t.addNew place c).IsWellFormed := by
  unfold FileTree.addNew
  split
  · exact ht
  next h =>
    have hnew : place ∉ t.entries.map Prod.fst := not_mem_of_content? (by simpa using h)
    refine ⟨ht.isAbsolute, ht.isPlain, ?_, ?_⟩
    · simp only [List.map_append, List.map_cons, List.map_nil, List.nodup_append, List.nodup_cons, List.not_mem_nil,
        not_false_eq_true, List.nodup_nil, and_self, true_and, List.mem_singleton]
      refine ⟨ht.nodup, ?_⟩
      rintro a ha _ rfl rfl
      exact hnew ha
    · intro place' hmem
      simp only [List.map_append, List.map_cons, List.map_nil, List.mem_append, List.mem_singleton] at hmem
      rcases hmem with hmem | rfl
      · exact ht.names place' hmem
      · exact hplace

/-- Putting something into a tree leaves it well-formed. -/
theorem IsWellFormed.add (ht : t.IsWellFormed) (c : Content) (hplace : ∀ name ∈ place, Path.IsStep name ∧ name ≠ "..") :
    (t.add place c).IsWellFormed := by
  have habove : ∀ dirs : List Place, (∀ dir ∈ dirs, ∀ name ∈ dir, name ∈ place) → ∀ tree : FileTree, tree.IsWellFormed →
      (dirs.foldl (fun tree dir => tree.addNew dir .directory) tree).IsWellFormed := by
    intro dirs
    induction dirs with
    | nil => exact fun _ _ h => h
    | cons dir dirs ih =>
      intro hdirs tree htree
      refine ih (fun d hd => hdirs d (List.mem_cons_of_mem dir hd)) _ (htree.addNew _ fun name hname => ?_)
      exact hplace name (hdirs dir List.mem_cons_self name hname)
  refine (habove (above place) ?_ t ht).addNew c hplace
  intro dir hdir name hname
  obtain ⟨n, _, rfl⟩ := List.mem_map.1 hdir
  exact List.mem_of_mem_take hname

/-! ## Where paths lead -/

/-- Following a field ends in a place only in a directory: there, or above it, or at an entry of it. -/
theorem follow_eq_ok {field : String} (h : t.follow place field = .ok place') :
    t.content? place = some .directory ∧ (Path.isIdle field = true → place' = place) ∧
      (Path.isIdle field = false → field ≠ ".." → place' = place ++ [field]) := by
  unfold follow at h
  split at h
  · cases h
  · cases h
  · cases h
  next hdir =>
    refine ⟨hdir, ?_, ?_⟩
    · intro hidle
      rw [if_pos hidle] at h
      exact (Except.ok.inj h).symm
    · intro hidle hparent
      rw [if_neg (by simp [hidle]), if_neg (by simpa using hparent)] at h
      split at h
      · cases h
      · split at h
        · exact (Except.ok.inj h).symm
        · cases h

/-- Idle fields lead nowhere else. -/
theorem foldlM_follow_filter {fs : List String} (h : fs.foldlM t.follow place = .ok place') :
    (fs.filter fun f => !Path.isIdle f).foldlM t.follow place = .ok place' := by
  induction fs generalizing place with
  | nil => exact h
  | cons f fs ih =>
    rw [List.foldlM_cons] at h
    cases hf : t.follow place f with
    | error err => simp [hf, bind, Except.bind] at h
    | ok next =>
      have hrest : fs.foldlM t.follow next = .ok place' := by simpa [hf, bind, Except.bind] using h
      cases hidle : Path.isIdle f with
      | true =>
        obtain rfl := (follow_eq_ok hf).2.1 hidle
        rw [List.filter_cons_of_neg (by simp [hidle])]
        exact ih hrest
      | false =>
        rw [List.filter_cons_of_pos (by simp [hidle]), List.foldlM_cons, hf]
        exact ih hrest

/-- The last field of a list is followed from where the others lead to. -/
theorem foldlM_follow_concat {fs : List String} {field : String} {start : Place} :
    (fs ++ [field]).foldlM t.follow start = .ok place' ↔
      ∃ above, fs.foldlM t.follow start = .ok above ∧ t.follow above field = .ok place' := by
  rw [List.foldlM_append]
  cases hf : fs.foldlM t.follow start with
  | error err => simp [bind, Except.bind]
  | ok above => cases hl : t.follow above field <;> simp [bind, Except.bind, pure, Except.pure, hl]

/-- A path from the root is followed if it is not too long and holds no character that no path can hold. -/
theorem locate_eq_ok (hp : p.isAbsolute = true) : t.locate p = .ok place ↔
    '\x00' ∉ p.text.toList ∧ p.text.utf8ByteSize ≤ maxPathSize ∧ p.fields.tail.foldlM t.follow [] = .ok place := by
  have hne : (p.text == "") = false := by simpa using ModuleFile.text_ne_nil_of_isAbsolute hp
  unfold locate
  rw [hne, hp]
  by_cases hnul : '\x00' ∈ p.text.toList
  · simp [hnul]
  · by_cases hsize : p.text.utf8ByteSize ≤ maxPathSize
    · simp [hnul, hsize, Nat.not_lt.2 hsize]
    · simp [hnul, hsize, Nat.lt_of_not_le hsize]

/-- Where an absolute path leads to follows from its steps. -/
theorem foldlM_steps_of_locate (hp : p.isAbsolute = true) (h : t.locate p = .ok place) :
    p.steps.foldlM t.follow [] = .ok place := by
  rw [Path.steps_eq hp]
  exact foldlM_follow_filter ((locate_eq_ok hp).1 h).2.2

/-- Absolute paths with the same components lead to the same place, if both lead anywhere. -/
theorem locate_eq_of_components (hp : p.isAbsolute = true) (hq : q.isAbsolute = true)
    (hpq : p.components = q.components) (h : t.locate p = .ok place) (h' : t.locate q = .ok place') : place = place' := by
  have hsteps := foldlM_steps_of_locate hp h
  rw [Path.steps, hpq, ← Path.steps, foldlM_steps_of_locate hq h'] at hsteps
  exact (Except.ok.inj hsteps).symm

/-! ## Names in a directory -/

/-- What a directory lists are the names at its place. -/
theorem exists_of_list (h : t.list p = .ok names) : ∃ place, t.locate p = .ok place ∧
    names = (t.childNames place).mergeSort fun a b => decide (a ≤ b) := by
  unfold list at h
  cases hl : t.locate p with
  | error err => simp [hl, bind, Except.bind] at h
  | ok place =>
    simp only [hl, bind, Except.bind] at h
    split at h
    · exact ⟨place, rfl, (Except.ok.inj h).symm⟩
    · cases h
    · cases h

/-- Directories with the same components list the same names, if both can be listed. -/
theorem list_eq_of_components {names' : List String} (hp : p.isAbsolute = true) (hq : q.isAbsolute = true)
    (hpq : p.components = q.components) (h : t.list p = .ok names) (h' : t.list q = .ok names') : names = names' := by
  obtain ⟨place, hplace, rfl⟩ := exists_of_list h
  obtain ⟨place', hplace', rfl⟩ := exists_of_list h'
  rw [locate_eq_of_components hp hq hpq hplace hplace']

/-- The last name on the way to an entry of a directory. -/
def nameIn? (place entry : Place) : Option String :=
  if entry.dropLast = place && entry ≠ [] then entry.getLast? else none

theorem nameIn?_eq_some {entry : Place} {name : String} : nameIn? place entry = some name ↔ entry = place ++ [name] := by
  unfold nameIn?
  constructor
  · intro h
    split at h
    next hd =>
      simp only [ne_eq, Bool.and_eq_true, decide_eq_true_eq] at hd
      obtain ⟨front, rfl⟩ := List.getLast?_eq_some_iff.1 h
      rw [List.dropLast_concat] at hd
      rw [hd.1]
    next => cases h
  · rintro rfl
    simp

theorem childNames_eq (t : FileTree) (place : Place) :
    t.childNames place = (t.entries.map Prod.fst).filterMap (nameIn? place) := by
  rw [childNames, List.filterMap_map]
  rfl

/-- The names in a directory are those that an entry stands at. -/
theorem mem_childNames {name : String} : name ∈ t.childNames place ↔ place ++ [name] ∈ t.entries.map Prod.fst := by
  rw [childNames_eq, List.mem_filterMap]
  constructor
  · rintro ⟨entry, hentry, hname⟩
    rwa [← nameIn?_eq_some.1 hname]
  · exact fun h => ⟨_, h, nameIn?_eq_some.2 rfl⟩

theorem IsWellFormed.nodup_childNames (ht : t.IsWellFormed) (place : Place) : (t.childNames place).Nodup := by
  rw [childNames_eq]
  refine List.Nodup.filterMap ?_ ht.nodup
  intro entry entry' name h h'
  rw [nameIn?_eq_some.1 h, nameIn?_eq_some.1 h']

/-- A directory lists names that can stand in it, each of them once. -/
theorem IsWellFormed.names_of_list (ht : t.IsWellFormed) (h : t.list p = .ok names) :
    names.Nodup ∧ ∀ name ∈ names, Path.IsStep name ∧ name ≠ ".." := by
  obtain ⟨place, _, rfl⟩ := exists_of_list h
  have hperm := List.mergeSort_perm (t.childNames place) fun a b => decide (a ≤ b)
  refine ⟨hperm.nodup_iff.2 (ht.nodup_childNames place), fun name hname => ?_⟩
  have hentry := mem_childNames.1 (hperm.mem_iff.1 hname)
  exact ht.names _ hentry name (by simp)

/-! ## What lies below -/

/-- The number of entries below a place. -/
def countBelow (t : FileTree) (place : Place) : Nat :=
  (t.entries.map Prod.fst).countP fun entry => place.isPrefixOf entry && entry != place

/-- The number of entries below the place that these components lead to. -/
def below (t : FileTree) (components : List Path.Component) : Nat :=
  match (components.tail.map Path.Component.text).foldlM t.follow [] with
  | .ok place => t.countBelow place
  | .error _ => 0

theorem below_le_size (t : FileTree) (components : List Path.Component) : t.below components ≤ t.size := by
  unfold below
  split
  next place _ =>
    have hle : t.countBelow place ≤ (t.entries.map Prod.fst).length := List.countP_le_length
    rwa [List.length_map] at hle
  · exact Nat.zero_le _

/-- At most one of different names is the one that a test is true of. -/
theorem sum_ite_le_one {test : String → Bool} (hnodup : names.Nodup)
    (htest : ∀ a b, test a = true → test b = true → a = b) :
    (names.map fun name => if test name = true then 1 else 0).sum ≤ 1 := by
  induction names with
  | nil => exact Nat.zero_le 1
  | cons name names ih =>
    obtain ⟨hnew, hrest⟩ := List.nodup_cons.1 hnodup
    rw [List.map_cons, List.sum_cons]
    by_cases h : test name = true
    · have hzero : (names.map fun other => if test other = true then 1 else 0).sum = 0 := by
        refine List.sum_eq_zero fun count hcount => ?_
        obtain ⟨other, hother, rfl⟩ := List.mem_map.1 hcount
        refine if_neg fun hboth => hnew ?_
        rwa [htest name other h hboth]
      rw [if_pos h, hzero, Nat.add_zero]
    · rw [if_neg h, Nat.zero_add]
      exact ih hrest

/-- An entry lies below at most one name of a directory, and below the directory if there is such a name. -/
theorem sum_countP_le {entries : List Place} (hnodup : names.Nodup) :
    (names.map fun name => entries.countP fun entry => (place ++ [name]).isPrefixOf entry).sum ≤
      entries.countP fun entry => place.isPrefixOf entry && entry != place := by
  induction entries with
  | nil => simp
  | cons entry entries ih =>
    simp only [List.countP_cons, List.sum_map_add]
    refine Nat.add_le_add ih ?_
    by_cases hbelow : (place.isPrefixOf entry && entry != place) = true
    · rw [if_pos hbelow]
      refine sum_ite_le_one hnodup fun a b ha hb => ?_
      obtain ⟨as, rfl⟩ := List.isPrefixOf_iff_prefix.1 ha
      obtain ⟨bs, hbs⟩ := List.isPrefixOf_iff_prefix.1 hb
      simp only [List.append_assoc, List.append_cancel_left_eq, List.cons_append, List.nil_append, List.cons.injEq] at hbs
      exact hbs.1.symm
    · rw [if_neg hbelow, Nat.le_zero]
      refine List.sum_eq_zero fun count hcount => ?_
      obtain ⟨name, _, rfl⟩ := List.mem_map.1 hcount
      refine if_neg fun hfront => hbelow ?_
      obtain ⟨rest, rfl⟩ := List.isPrefixOf_iff_prefix.1 hfront
      simp

/-- An entry counts among those at its place and below. -/
theorem succ_countBelow_le (h : place ∈ t.entries.map Prod.fst) :
    1 + t.countBelow place ≤ (t.entries.map Prod.fst).countP fun entry => place.isPrefixOf entry := by
  unfold countBelow
  generalize t.entries.map Prod.fst = entries at h
  induction entries with
  | nil => cases h
  | cons entry entries ih =>
    simp only [List.countP_cons]
    rcases List.mem_cons.1 h with rfl | h
    · have hmono : (entries.countP fun entry => place.isPrefixOf entry && entry != place) ≤
          entries.countP fun entry => place.isPrefixOf entry :=
        List.countP_mono_left fun entry _ h => (Bool.and_eq_true_iff.1 h).1
      simp only [bne_self_eq_false, Bool.and_false, Bool.false_eq_true, if_false, List.isPrefixOf_iff_prefix,
        List.prefix_rfl, if_true]
      omega
    · have hrest := ih h
      by_cases hfront : place.isPrefixOf entry = true
      · rw [if_pos hfront]
        split <;> omega
      · rw [if_neg hfront, if_neg (by simp [hfront])]
        omega

/-- What is listed in a directory has no more below it, together with itself, than the directory. -/
theorem IsWellFormed.sum_below_le (ht : t.IsWellFormed) (hp : p.isAbsolute = true) (h : t.list p = .ok names)
    (keep : String → Bool) :
    ((names.filter keep).map fun name => 1 + t.below (p.child name).components).sum ≤ t.below p.components := by
  obtain ⟨place, hplace, hnames⟩ := exists_of_list h
  obtain ⟨hnodup, hsteps⟩ := ht.names_of_list h
  have hfollow : (p.components.tail.map Path.Component.text).foldlM t.follow [] = .ok place :=
    foldlM_steps_of_locate hp hplace
  have hentry : ∀ name ∈ names.filter keep, place ++ [name] ∈ t.entries.map Prod.fst := by
    intro name hname
    have hmem := (List.mem_filter.1 hname).1
    rw [hnames] at hmem
    exact mem_childNames.1 ((List.mergeSort_perm _ _).mem_iff.1 hmem)
  have hchild : ∀ name ∈ names.filter keep, t.below (p.child name).components ≤ t.countBelow (place ++ [name]) := by
    intro name hname
    obtain ⟨hstep, hparent⟩ := hsteps name (List.mem_filter.1 hname).1
    have hcomp : (p.child name).components.tail.map Path.Component.text = p.steps ++ [name] := Path.steps_child hp hstep
    unfold below
    rw [hcomp]
    split
    next next hnext =>
      obtain ⟨above, habove, hlast⟩ := foldlM_follow_concat.1 hnext
      obtain rfl : above = place := Except.ok.inj (habove.symm.trans hfollow)
      obtain rfl : next = above ++ [name] := (follow_eq_ok hlast).2.2 hstep.2 hparent
      exact Nat.le_refl _
    next => exact Nat.zero_le _
  have hbelow : t.below p.components = t.countBelow place := by
    unfold below
    rw [hfollow]
  rw [hbelow]
  calc ((names.filter keep).map fun name => 1 + t.below (p.child name).components).sum
      ≤ ((names.filter keep).map fun name =>
          (t.entries.map Prod.fst).countP fun entry => (place ++ [name]).isPrefixOf entry).sum := by
        refine List.sum_le_sum fun name hname => ?_
        exact (Nat.add_le_add_left (hchild name hname) 1).trans (succ_countBelow_le (hentry name hname))
    _ ≤ t.countBelow place := sum_countP_le (hnodup.filter keep)

end FileTree

end ImportClosure
