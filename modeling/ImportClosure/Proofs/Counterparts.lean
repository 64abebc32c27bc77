import ImportClosure.Proofs.Builders
import ImportClosure.Proofs.Recursion
import ImportClosure.Proofs.SameBelow

/-!
# Counterparts below two directories

Two files are counterparts if the same steps lead to them from two directories (`ModuleFile.Counterpart`). In trees that are
the same below the directories they hold the same module, they are built alike by builders from sources, and two of them are
one place exactly if their counterparts are (`Identity.Counterpart.eq_iff`).
-/

namespace ImportClosure

/-! ## Paths -/

namespace Path

variable {dir : Path} {x : String} {fs : List String} {b : Place} {n : Nat}

/-- Fields that lead down add their components. -/
theorem components_down_eq (h : dir.isAbsolute = true) (hfs : ∀ f ∈ fs, '/' ∉ f.toList) :
    (dir.down fs).components = dir.components ++ fs.filterMap component? := by
  induction fs using List.reverseRecOn with
  | nil => simp [down]
  | append_singleton fs f ih =>
    have hf := hfs f List.mem_concat_self
    rw [down_concat, child, components_join (isAbsolute_down h fs) (isAbsolute_of_not_mem hf),
      ih fun g hg => hfs g (List.mem_append_left _ hg), fields, Text.fields_of_not_mem hf, List.filterMap_append,
      List.append_assoc]

/-- Fields that lead down begin at the same root. -/
theorem rootText_down (h : dir.rootText = "/") (hfs : ∀ f ∈ fs, '/' ∉ f.toList) : (dir.down fs).rootText = "/" := by
  induction fs using List.reverseRecOn with
  | nil => exact h
  | append_singleton fs f ih =>
    rw [down_concat]
    exact rootText_child (ih fun g hg => hfs g (List.mem_append_left _ hg)) (hfs f List.mem_concat_self)

/-- The steps below a path are its fields that do something. -/
theorem below_eq_down (p : Path) (fs : List String) :
    (⟨below p.text (fs.filterMap component?)⟩ : Path) = p.down (fs.filter fun f => !isIdle f) := by
  rw [← map_text_filterMap]
  generalize fs.filterMap component? = steps
  induction steps generalizing p with
  | nil => rfl
  | cons c steps ih => exact ih (p.child c.text)

/-- Written from the root, fields below a place lose those that do nothing, if a step is the last of them. -/
theorem absolute_down_concat (hb : ∀ name ∈ b, IsStep name ∧ name ≠ "..") (hfs : ∀ f ∈ fs, '/' ∉ f.toList)
    (hx : IsStep x) (w : Path) :
    ((ofPlace b).down (fs ++ [x])).absolute w = (ofPlace b).down ((fs ++ [x]).filter fun f => !isIdle f) := by
  have habs : (Path.down ⟨"/"⟩ (b ++ (fs ++ [x]))).isAbsolute = true := isAbsolute_down (by decide) _
  have hslash : ∀ f ∈ b ++ (fs ++ [x]), '/' ∉ f.toList := by
    intro f hf
    rcases List.mem_append.1 hf with hf | hf
    · exact (hb f hf).1.1
    · exact (List.mem_append.1 hf).elim (hfs f) fun hmem => List.mem_singleton.1 hmem ▸ hx.1
  have hjoin : ∀ gs, (ofPlace b).down gs = Path.down ⟨"/"⟩ (b ++ gs) := fun gs => (List.foldl_append ..).symm
  have hend : Text.endsWith (Path.down ⟨"/"⟩ (b ++ (fs ++ [x]))).text "/" = false := by
    rw [← List.append_assoc, down_concat]
    exact endsWith_child (isAbsolute_down (by decide) _) hx
  have hidle : b.filter (fun f => !isIdle f) = b := List.filter_eq_self.2 fun name hname => by simp [(hb name hname).1.2]
  rw [hjoin, hjoin, absolute_eq_bare habs, hend, Bool.false_and, if_neg (by decide), bare,
    components_down_eq (by decide) hslash, rootText_down (by decide) hslash]
  have hbelow := below_eq_down ⟨"/"⟩ (b ++ (fs ++ [x]))
  rwa [List.filter_append, hidle] at hbelow

/-- Fields without those that do nothing are inside, too. -/
theorem Inside.filter (h : Inside n fs) : Inside n (fs.filter fun f => !isIdle f) := by
  have hfold : ∀ d, (fs.filter fun f => !isIdle f).foldlM depthStep d = fs.foldlM depthStep d := by
    intro d
    clear h
    induction fs generalizing d with
    | nil => rfl
    | cons f fs ih =>
      cases hf : isIdle f with
      | true =>
        rw [List.filter_cons_of_neg (by simp [hf]), List.foldlM_cons, depthStep, if_pos hf]
        exact ih d
      | false =>
        rw [List.filter_cons_of_pos (by simp [hf]), List.foldlM_cons, List.foldlM_cons]
        exact congrArg _ (funext ih)
  refine ⟨fun f hf => h.slashless f (List.mem_filter.1 hf).1, ?_, ?_⟩
  · rw [depth?, hfold]
    exact h.stays
  · exact ((List.filter_sublist).countP_le).trans h.turns_le

/-- Steps lead from a place without a slash behind them. -/
theorem fields_down_of_isStep (hb : ∀ name ∈ b, IsStep name ∧ name ≠ "..") (hfs : ∀ f ∈ fs, IsStep f) :
    ∀ f, ((ofPlace b).down fs).fields.getLast? = some f → b ++ fs ≠ [] → isIdle f = false := by
  intro f hf hne
  have hjoin : (ofPlace b).down fs = Path.down ⟨"/"⟩ (b ++ fs) := (List.foldl_append ..).symm
  obtain ⟨front, x, hx⟩ := List.eq_nil_or_concat (b ++ fs) |>.resolve_left hne
  rw [List.concat_eq_append] at hx
  have hstep : IsStep x := by
    have hmem : x ∈ b ++ fs := hx ▸ List.mem_concat_self
    exact (List.mem_append.1 hmem).elim (fun h => (hb x h).1) (hfs x)
  rw [hjoin, hx, down_concat, fields_child (isAbsolute_down (by decide) front) hstep.1, List.getLast?_concat] at hf
  exact Option.some.inj hf ▸ hstep.2

end Path

/-! ## Files -/

open ImportClosure.Path

/-- Two paths that the same steps lead to from two directories. -/
inductive Path.Counterpart (b b' : Place) (n : Nat) : Path → Path → Prop where
  | below {fs : List String} (steps : ∀ f ∈ fs, IsStep f) (inside : Inside n fs) :
      Counterpart b b' n ((ofPlace b).down fs) ((ofPlace b').down fs)

/-- Two files that the same steps lead to from two directories. -/
inductive ModuleFile.Counterpart (b b' : Place) (n : Nat) : ModuleFile → ModuleFile → Prop where
  | below {fs : List String} {x : String} (steps : ∀ f ∈ fs, IsStep f) (last : IsStep x ∧ x ≠ "..")
      (inside : Inside n (fs ++ [x])) :
      Counterpart b b' n ⟨(ofPlace b).down (fs ++ [x])⟩ ⟨(ofPlace b').down (fs ++ [x])⟩

/-- Two modules of one name at counterparts. -/
structure Identity.Counterpart (b b' : Place) (i i' : Identity) : Prop where
  name_eq : i.name = i'.name
  place : ∃ rest, i.place = (ofPlace b).components ++ rest ∧ i'.place = (ofPlace b').components ++ rest

/-- Modules are one exactly if their counterparts are. -/
theorem Identity.Counterpart.eq_iff {b b' : Place} {i i' j j' : Identity} (h : i.Counterpart b b' i')
    (h' : j.Counterpart b b' j') : i = j ↔ i' = j' := by
  obtain ⟨rest, hplace, hplace'⟩ := h.place
  obtain ⟨other, hother, hother'⟩ := h'.place
  cases i
  cases i'
  cases j
  cases j'
  cases h.name_eq
  cases h'.name_eq
  simp_all

/-- An identity is in a list exactly if its counterpart is in the list of counterparts. -/
theorem Identity.Counterpart.contains_eq {b b' : Place} {i i' : Identity} {x x' : List Identity} (hi : i.Counterpart b b' i')
    (hx : List.Forall₂ (Identity.Counterpart b b') x x') : x.contains i = x'.contains i' := by
  induction hx with
  | nil => rfl
  | @cons j j' _ _ hj _ ih =>
    have heq : (i == j) = (i' == j') := Bool.eq_iff_iff.2 (by simpa using hi.eq_iff hj)
    rw [List.contains_cons, List.contains_cons, heq, ih]

/-- Two records of one module at counterparts. -/
structure ModuleRecord.Counterpart (b b' : Place) (n : Nat) (m m' : ModuleRecord) : Prop where
  same : m' = { m with file := m'.file }
  file : m.file.Counterpart b b' n m'.file

variable {t t' : FileTree} {b b' : Place} {n : Nat} {p p' : Path} {f f' : ModuleFile} {fs : List String} {x : String}

/-- Children of counterparts are counterparts. -/
theorem Path.Counterpart.child (h : p.Counterpart b b' n p') (hx : IsStep x ∧ x ≠ "..") :
    (p.child x).Counterpart b b' n (p'.child x) := by
  cases h with
  | below steps inside =>
    rw [← down_concat, ← down_concat]
    refine .below (fun f hf => ?_) (inside.concat hx)
    exact (List.mem_append.1 hf).elim (steps f) fun hmem => List.mem_singleton.1 hmem ▸ hx.1

/-- Counterparts are absolute. -/
theorem Path.Counterpart.isAbsolute (h : p.Counterpart b b' n p') : p.isAbsolute = true ∧ p'.isAbsolute = true := by
  cases h with
  | below =>
    exact ⟨isAbsolute_down (FileTree.HasDirectory.isAbsolute b) _, isAbsolute_down (FileTree.HasDirectory.isAbsolute b') _⟩

namespace ModuleFile.Counterpart

/-- A step down from the directory of counterparts leads to counterparts. -/
theorem of_child (h : p.Counterpart b b' n p') (hx : IsStep x ∧ x ≠ "..") :
    ModuleFile.Counterpart b b' n ⟨p.child x⟩ ⟨p'.child x⟩ := by
  cases h with
  | below steps inside =>
    rw [← down_concat, ← down_concat]
    exact .below steps hx (inside.concat hx)

/-- The paths of files that are counterparts are so. -/
theorem path (h : f.Counterpart b b' n f') : f.path.Counterpart b b' n f'.path := by
  cases h with
  | below steps last inside =>
    refine .below (fun f hf => ?_) inside
    exact (List.mem_append.1 hf).elim (steps f) fun hmem => List.mem_singleton.1 hmem ▸ last.1

/-- Files that are counterparts end with the same name. -/
theorem fileName_eq (h : f.Counterpart b b' n f') : f.path.fileName = f'.path.fileName := by
  cases h with
  | below steps last inside =>
    rw [down_concat, down_concat, fileName_child (isAbsolute_down (FileTree.HasDirectory.isAbsolute b) _) last.1 last.2,
      fileName_child (isAbsolute_down (FileTree.HasDirectory.isAbsolute b') _) last.1 last.2]

/-- Counterparts are init entries alike. -/
theorem isInitEntry_eq (h : f.Counterpart b b' n f') : f.isInitEntry = f'.isInitEntry := by
  rw [isInitEntry, isInitEntry, h.fileName_eq]

end ModuleFile.Counterpart

namespace FileTree.SameBelow

variable (h : t.SameBelow t' b b' n)
include h

/-- The directories above counterparts are counterparts. -/
theorem exists_parent? (hf : f.Counterpart b b' n f') :
    ∃ p p', f.path.parent? = some p ∧ f'.path.parent? = some p' ∧ p.Counterpart b b' n p' := by
  cases hf with
  | @below fs x steps last inside =>
    have hparent : ∀ {tree : FileTree} {base : Place}, tree.HasDirectory base →
        ((ofPlace base).down (fs ++ [x])).parent? = some ((ofPlace base).down fs) := by
      intro tree base hbase
      rw [down_concat]
      refine parent?_child (isAbsolute_down (HasDirectory.isAbsolute base) fs) (fun f hf => ?_) last.1
      exact fields_down_of_isStep hbase.steps steps f hf (by simp [hbase.ne_nil])
    exact ⟨_, _, hparent h.base, hparent h.base', .below steps inside.of_concat⟩

/-- The identities of counterparts are counterparts. -/
theorem identity_path (hf : f.Counterpart b b' n f') : f.identity.Counterpart b b' n f'.identity := by
  rw [ModuleFile.identity, ModuleFile.identity, hf.isInitEntry_eq]
  split
  · obtain ⟨p, p', hp, hp', hcounter⟩ := h.exists_parent? hf
    rw [hp, hp']
    exact hcounter
  · exact hf.path

/-- The identities of counterparts under one name are counterparts. -/
theorem identity (hf : f.Counterpart b b' n f') (name : ModuleName) :
    Identity.Counterpart b b' ⟨name, f.place⟩ ⟨name, f'.place⟩ := by
  refine ⟨rfl, ?_⟩
  have hid := h.identity_path hf
  unfold ModuleFile.place
  generalize f.identity = p, f'.identity = p' at hid
  cases hid with
  | @below fs steps inside =>
    exact ⟨fs.filterMap component?, components_down_eq (HasDirectory.isAbsolute b) inside.slashless,
      components_down_eq (HasDirectory.isAbsolute b') inside.slashless⟩

/-! ## What stands at counterparts -/

/-- Fields lead to a directory in both trees or in none. -/
theorem isDir_eq (hfs : Inside n fs) : t.isDir ((ofPlace b).down fs) = t'.isDir ((ofPlace b').down fs) := by
  rw [FileTree.isDir, FileTree.isDir, (h.seen_down_eq hfs).1]

/-- Fields lead to a file in both trees or in none. -/
theorem isFile_eq (hfs : Inside n fs) : t.isFile ((ofPlace b).down fs) = t'.isFile ((ofPlace b').down fs) := by
  rw [FileTree.isFile, FileTree.isFile, (h.seen_down_eq hfs).1]

/-- Fields lead to something in both trees or in none. -/
theorem exists?_eq (hfs : Inside n fs) : t.exists? ((ofPlace b).down fs) = t'.exists? ((ofPlace b').down fs) := by
  rw [exists?, exists?, (h.seen_down_eq hfs).1]

/-- The text of a source does not depend on where the directory stands. -/
theorem readText_eq (hfs : Inside n fs) :
    (t.readText ((ofPlace b).down fs)).toOption = (t'.readText ((ofPlace b').down fs)).toOption := by
  have hread : ∀ (tree : FileTree) (path : Path) (text : String),
      (tree.readText path).toOption = some text ↔ tree.read? path = some (.text text) := by
    intro tree path text
    unfold readText read?
    cases tree.locate path with
    | error cause => simp [bind, Except.bind, Except.toOption]
    | ok place =>
      simp only [bind, Except.bind]
      cases tree.content? place with
      | none => simp [Except.toOption]
      | some c => cases c <;> simp [Except.toOption]
  refine Option.ext fun text => ?_
  rw [hread, hread, (h.seen_down_eq hfs).1]

/-- Counterparts are both there or both missing. -/
theorem exists?_path_eq (hp : p.Counterpart b b' n p') : t.exists? p = t'.exists? p' := by
  cases hp with
  | below _ inside => exact h.exists?_eq inside

/-- Counterparts have init entries alike. -/
theorem hasInitEntry_eq (hp : p.Counterpart b b' n p') : t.hasInitEntry p = t'.hasInitEntry p' := by
  have hinit := hp.child (x := initEntry) (by decide)
  unfold hasInitEntry
  generalize p.child initEntry = q, p'.child initEntry = q' at hinit
  cases hinit with
  | below steps inside => exact h.isFile_eq inside

/-- The paths of files that are counterparts are directories alike. -/
theorem isDir_file_eq (hf : f.Counterpart b b' n f') : t.isDir f.path = t'.isDir f'.path := by
  cases hf with
  | below steps last inside => exact h.isDir_eq inside

/-- The paths of files that are counterparts are packages alike. -/
theorem isPackage_eq (hf : f.Counterpart b b' n f') : t.isPackage f.path = t'.isPackage f'.path := by
  rw [isPackage, isPackage, h.isDir_file_eq hf, h.hasInitEntry_eq hf.path, hf.fileName_eq]

/-- A file holds the module that its counterpart holds. -/
theorem moduleAt?_eq (hf : f.Counterpart b b' n f') : t.moduleAt? f.path = t'.moduleAt? f'.path := by
  rw [moduleAt?, moduleAt?, hf.fileName_eq, h.isPackage_eq hf, h.isDir_file_eq hf]

/-! ## Builds -/

/-- A step below counterparts is written the same from the root. -/
theorem ofPath_child (hp : p.Counterpart b b' n p') (hx : IsStep x ∧ x ≠ "..") :
    (ModuleFile.ofPath t.workDir (p.child x)).Counterpart b b' n (.ofPath t'.workDir (p'.child x)) := by
  cases hp with
  | @below fs steps inside =>
    have hall : (fs ++ [x]).filter (fun f => !isIdle f) = fs ++ [x] := by
      refine List.filter_eq_self.2 fun f hf => ?_
      rcases List.mem_append.1 hf with hf | hf
      · simp [(steps f hf).2]
      · simp [List.mem_singleton.1 hf ▸ hx.1.2]
    rw [← down_concat, ← down_concat, ModuleFile.ofPath, ModuleFile.ofPath,
      absolute_down_concat h.base.steps inside.slashless hx.1, absolute_down_concat h.base'.steps inside.slashless hx.1, hall]
    exact .below steps hx (inside.concat hx)

variable {r r' : BuildRequest}

/-- What is built for counterparts, and the sources that are read for it, are counterparts. -/
theorem target (hr : r' = { r with file := r'.file }) (hf : r.file.Counterpart b b' n r'.file) :
    (r.target t).1.Counterpart b b' n (r'.target t').1 ∧
      ((r.target t).2 = none ∧ (r'.target t').2 = none ∨
        ∃ p p', (r.target t).2 = some p ∧ (r'.target t').2 = some p' ∧ p.Counterpart b b' n p') := by
  obtain ⟨name, file, kind, isTop, hidden⟩ := r
  obtain ⟨_, file', _, _, _⟩ := r'
  cases hr
  simp only [BuildRequest.target, ← h.isDir_file_eq hf, ← h.hasInitEntry_eq hf.path, ← hf.isInitEntry_eq]
  split
  · split
    · exact ⟨⟨rfl, h.ofPath_child hf.path (by decide)⟩, Or.inr ⟨_, _, rfl, rfl, hf.path.child (by decide)⟩⟩
    · exact ⟨⟨rfl, hf⟩, Or.inl ⟨rfl, rfl⟩⟩
  · split
    · exact ⟨⟨rfl, hf⟩, Or.inr ⟨_, _, rfl, rfl, hf.path⟩⟩
    · refine ⟨⟨rfl, hf⟩, ?_⟩
      split
      · exact Or.inr ⟨_, _, rfl, rfl, hf.path⟩
      · exact Or.inl ⟨rfl, rfl⟩

end FileTree.SameBelow

/-- What two builders answer if they build counterparts, or both pass the module over. -/
inductive BuildOutcome.Counterpart (b b' : Place) (n : Nat) :
    Except Error (Option BuildOutcome) → Except Error (Option BuildOutcome) → Prop where
  | passedOver : Counterpart b b' n (.ok none) (.ok none)
  | built {o o' : BuildOutcome} (record : o.record.Counterpart b b' n o'.record) (newly : o.newlyBuilt = o'.newlyBuilt) :
      Counterpart b b' n (.ok (some o)) (.ok (some o'))

namespace FileTree.SameBelow

variable (h : t.SameBelow t' b b' n)
include h

/-- The identities of records that are counterparts are so. -/
theorem identity_record {m m' : ModuleRecord} (hm : m.Counterpart b b' n m') : m.identity.Counterpart b b' m'.identity := by
  have hid := h.identity hm.file m.name
  rw [hm.same]
  exact hid

/-- A record stands for an identity exactly if its counterpart does for the counterpart. -/
theorem isOf_eq {m m' : ModuleRecord} {i i' : Identity} (hm : m.Counterpart b b' n m') (hi : i.Counterpart b b' i') :
    Handle.isOf m i = Handle.isOf m' i' := by
  rw [Bool.eq_iff_iff, ModuleRecord.isOf_iff, ModuleRecord.isOf_iff]
  exact (h.identity_record hm).eq_iff hi

/-- Where syntax errors are hidden, a source is passed over or gives edges, and which of them depends on its text only. -/
theorem readSource_eq (hp : p.Counterpart b b' n p') (s s' : SearchPath) (m m' : ModuleRecord) :
    (∃ notes notes', s.readSource t m p true = (.ok none, notes) ∧ s'.readSource t' m' p' true = (.ok none, notes')) ∨
      ∃ edges edges' notes notes', s.readSource t m p true = (.ok (some edges), notes) ∧
        s'.readSource t' m' p' true = (.ok (some edges'), notes') := by
  have htext : (t.readText p).toOption = (t'.readText p').toOption := by
    cases hp with
    | below steps inside => exact h.readText_eq inside
  unfold SearchPath.readSource
  generalize t.readText p = read, t'.readText p' = read' at htext ⊢
  rcases read with cause | text <;> rcases read' with cause' | text'
  · exact Or.inl ⟨_, _, rfl, rfl⟩
  · cases htext
  · cases htext
  · obtain rfl : text = text' := Option.some.inj htext
    simp only [SearchPath.scan]
    cases Python.readImports text with
    | error line => exact Or.inl ⟨_, _, rfl, rfl⟩
    | ok statements => exact Or.inr ⟨_, _, _, _, rfl, rfl⟩

/-- Builders from sources build counterparts alike, and remember them. -/
theorem build (s s' : SearchPath) {r r' : BuildRequest} (hr : r' = { r with file := r'.file })
    (hf : r.file.Counterpart b b' n r'.file) (hidden : r.hideSyntaxError = true) {x x' : List Identity}
    (hx : List.Forall₂ (Identity.Counterpart b b') x x') :
    BuildOutcome.Counterpart b b' n ((Builder.ofSources s t).build r x).1.result
        ((Builder.ofSources s' t').build r' x').1.result ∧
      List.Forall₂ (Identity.Counterpart b b') ((Builder.ofSources s t).build r x).2
        ((Builder.ofSources s' t').build r' x').2 := by
  obtain ⟨hrecord, hsource⟩ := h.target hr hf
  have hid := h.identity_record hrecord
  have hidden' : r'.hideSyntaxError = true := by rw [hr]; exact hidden
  simp only [Builder.ofSources, hid.contains_eq hx]
  split
  · exact ⟨.built hrecord rfl, hx⟩
  · rcases hsource with ⟨hnone, hnone'⟩ | ⟨p, p', hp, hp', hcounter⟩
    · rw [hnone, hnone']
      exact ⟨.built hrecord rfl, .cons hid hx⟩
    · rw [hp, hp', hidden, hidden']
      rcases h.readSource_eq hcounter s s' (r.target t).1 (r'.target t').1 with
        ⟨notes, notes', hread, hread'⟩ | ⟨edges, edges', notes, notes', hread, hread'⟩
      · simp only [hread, hread']
        exact ⟨.passedOver, hx⟩
      · simp only [hread, hread']
        exact ⟨.built hrecord rfl, .cons hid hx⟩

end FileTree.SameBelow

end ImportClosure
