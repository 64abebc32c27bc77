import ImportClosure.Proofs.Rooted
import Mathlib.Logic.Relation

/-!
# Builders that stay with what they answered

A builder is steady on a class of requests if it gives its records under the identity that is requested, and does not come
back to a module that it has passed over (`Builder.IsSteadyOn`). A table is steady on all requests. Sources are on those
that walks make for plainly written paths (`Builder.isSteadyOn_ofSources`): there two requests for one module lead to the
same source (`BuildRequest.IsWalked.source_eq`), however each of them is spelled.
-/

namespace ImportClosure

open Relation

namespace Path

variable {p q : Path}

/-- Plain paths with the same components are the same, if neither of them ends with a slash. -/
theorem IsPlain.eq_of_components (hp : p.IsPlain) (hq : q.IsPlain) (h : p.isAbsolute = true) (h' : q.isAbsolute = true)
    (hpq : p.components = q.components) (hend : Text.endsWith p.text "/" = false)
    (hend' : Text.endsWith q.text "/" = false) : p = q := by
  have hfields : p.fields = q.fields := by
    rw [hp.fields_eq_append h, hq.fields_eq_append h', hend, hend', steps, hpq, steps]
  have htext := congrArg (Text.unfields '/') hfields
  rw [fields, fields, Text.unfields_fields, Text.unfields_fields] at htext
  exact congrArg Path.mk htext

/-- A plain path that does not end with a slash has a step. -/
theorem IsPlain.steps_ne_nil (hp : p.IsPlain) (h : p.isAbsolute = true) (hend : Text.endsWith p.text "/" = false) :
    p.steps ≠ [] := by
  intro hnil
  have hfields := hp.fields_eq_append h
  rw [hnil, hend] at hfields
  obtain ⟨fs, hne, hfs⟩ := exists_fields_of_isAbsolute h
  rw [hfields] at hfs
  exact hne (List.cons.inj hfs).2.symm

end Path

namespace FileTree

variable {t : FileTree} {p q : Path}

/-- Plain paths with the same components lead to directories alike, if a path with a slash at its end does lead to one. -/
theorem isDir_of_components (hp : p.IsPlain) (hq : q.IsPlain) (h : p.isAbsolute = true) (h' : q.isAbsolute = true)
    (hpq : p.components = q.components) (hslash : Text.endsWith q.text "/" = true → t.isDir q = true)
    (hdir : t.isDir p = true) : t.isDir q = true := by
  cases hend : Text.endsWith q.text "/" with
  | true => exact hslash hend
  | false =>
    -- the path is that of the steps, and is followed if any way to write them is
    have hbare : q = p.bare := by
      rcases (hq.isCanonical (w := p) h').eq_bare_or with hbare | ⟨_, hbare⟩
      · rw [Path.bare, hpq, hp.rootText_eq, ← hq.rootText_eq]
        exact hbare
      · rw [hbare, Path.endsWith_append_slash] at hend
        cases hend
    have hsteps : p.steps ≠ [] := by
      rw [Path.steps, hpq]
      exact hq.steps_ne_nil h' hend
    unfold isDir read? at hdir ⊢
    cases hl : t.locate p with
    | error err => simp [hl] at hdir
    | ok place =>
      rw [hbare, locate_bare h hsteps hl]
      rwa [hl] at hdir

end FileTree

/-! ## What walks ask for -/

/-- A request as walks make it for a plainly written path: for the kind of module that is there, with syntax errors hidden.
What ends with a slash is a directory, and an init entry is a file. -/
structure BuildRequest.IsWalked (t : FileTree) (r : BuildRequest) : Prop where
  isAbsolute : r.file.path.isAbsolute = true
  isPlain : r.file.path.IsPlain
  isDir : Text.endsWith r.file.path.text "/" = true → t.isDir r.file.path = true
  isFile : r.file.isInitEntry = true → t.isFile r.file.path = true
  kind_eq : (t.moduleAt? r.file.path).map Prod.snd = some r.kind
  hidden : r.hideSyntaxError = true

namespace BuildRequest.IsWalked

variable {t : FileTree} {r r' : BuildRequest}

theorem endsWith_eq (h : r.IsWalked t) (hdir : t.isDir r.file.path = false) :
    Text.endsWith r.file.path.text "/" = false := by
  rw [← Bool.not_eq_true]
  intro hend
  rw [h.isDir hend] at hdir
  cases hdir

/-- An init entry is the source of its package. -/
theorem source_of_isInitEntry (h : r.IsWalked t) (hi : r.file.isInitEntry = true) :
    (r.target t).2 = some r.file.path := by
  simp [target, FileTree.isDir_of_isFile (h.isFile hi), hi]

/-- The identity is the one of the target. -/
theorem identity_target (hw : t.workDir.isAbsolute = true) (h : r.IsWalked t) : (r.target t).1.identity = r.identity := by
  cases hi : r.file.isInitEntry with
  | false => exact BuildRequest.identity_target hw h.isAbsolute hi
  | true =>
    simp only [target, FileTree.isDir_of_isFile (h.isFile hi), hi, Bool.false_eq_true, if_false, if_true]
    rfl

/-- An init entry and the directory that it is in lead to the same source. -/
theorem source_eq_of_isInitEntry (h : r.IsWalked t) (h' : r'.IsWalked t) (hplace : r'.file.place = r.file.place)
    (hi : r.file.isInitEntry = true) (hi' : r'.file.isInitEntry = false) : (r'.target t).2 = (r.target t).2 := by
  have hname : r.file.path.fileName = some initEntry := by simpa [ModuleFile.isInitEntry] using hi
  have hfile := h.isFile hi
  obtain ⟨dir, hdir⟩ := Path.exists_parent? hname
  have habs : dir.isAbsolute = true := Path.isAbsolute_parent? hdir h.isAbsolute
  have hcomponents : r'.file.path.components = dir.components := by
    rw [← ModuleFile.place_of_ne (by simpa [ModuleFile.isInitEntry] using hi'), hplace, ModuleFile.place,
      ModuleFile.identity, if_pos hi, hdir, Option.getD_some]
  -- the request for the directory is one for a directory with this init entry
  obtain ⟨_, hlist⟩ := FileTree.exists_list_of_parent? h.isAbsolute hdir (FileTree.exists?_of_isFile hfile)
  have hisDir : t.isDir r'.file.path = true :=
    FileTree.isDir_of_components (h.isPlain.parent? h.isAbsolute hdir) h'.isPlain habs h'.isAbsolute hcomponents.symm
      h'.isDir (FileTree.isDir_of_list hlist)
  have hchild : r'.file.path.child initEntry = r.file.path := by
    refine (h'.isPlain.child h'.isAbsolute Path.isStep_initEntry).eq_of_components h.isPlain
      (Path.isAbsolute_child h'.isAbsolute _) h.isAbsolute ?_ (Path.endsWith_child h'.isAbsolute Path.isStep_initEntry)
      (h.endsWith_eq (FileTree.isDir_of_isFile hfile))
    rw [Path.components_child_eq h'.isAbsolute Path.isStep_initEntry (by decide), hcomponents, r.file.components_path,
      if_pos hi, ModuleFile.place, ModuleFile.identity, if_pos hi, hdir, Option.getD_some]
  rw [h.source_of_isInitEntry hi]
  simp [target, hisDir, FileTree.hasInitEntry, hchild, hfile]

/-- Requests for one module lead to the same source. -/
theorem source_eq (h : r.IsWalked t) (h' : r'.IsWalked t) (hid : r'.identity = r.identity) :
    (r'.target t).2 = (r.target t).2 := by
  have hplace : r'.file.place = r.file.place := congrArg Identity.place hid
  cases hi : r.file.isInitEntry with
  | true =>
    cases hi' : r'.file.isInitEntry with
    | false => exact source_eq_of_isInitEntry h h' hplace hi hi'
    | true =>
      rw [h.source_of_isInitEntry hi, h'.source_of_isInitEntry hi']
      refine congrArg some (h'.isPlain.eq_of_components h.isPlain h'.isAbsolute h.isAbsolute ?_
        (h'.endsWith_eq (FileTree.isDir_of_isFile (h'.isFile hi')))
        (h.endsWith_eq (FileTree.isDir_of_isFile (h.isFile hi))))
      rw [r'.file.components_path, r.file.components_path, if_pos hi', if_pos hi, hplace]
  | false =>
    cases hi' : r'.file.isInitEntry with
    | true => exact (source_eq_of_isInitEntry h' h hplace.symm hi' hi).symm
    | false =>
      have hcomponents : r'.file.path.components = r.file.path.components := by
        rw [r'.file.components_path, r.file.components_path, hi', hi, hplace]
      have hdirs : t.isDir r'.file.path = t.isDir r.file.path := by
        rw [Bool.eq_iff_iff]
        exact ⟨FileTree.isDir_of_components h'.isPlain h.isPlain h'.isAbsolute h.isAbsolute hcomponents h.isDir,
          FileTree.isDir_of_components h.isPlain h'.isPlain h.isAbsolute h'.isAbsolute hcomponents.symm h'.isDir⟩
      cases hd : t.isDir r.file.path with
      | true =>
        have hchild := h'.isPlain.child_eq h.isPlain h'.isAbsolute hcomponents h.isAbsolute Path.isStep_initEntry.1
        cases hinit : t.isFile (r.file.path.child initEntry) <;>
          simp [target, hdirs, hd, FileTree.hasInitEntry, hchild, hinit]
      | false =>
        have hpath := h'.isPlain.eq_of_components h.isPlain h'.isAbsolute h.isAbsolute hcomponents
          (h'.endsWith_eq (hdirs.trans hd)) (h.endsWith_eq hd)
        have hkind : r'.kind = r.kind := by
          have hkinds := h'.kind_eq
          rw [hpath, h.kind_eq] at hkinds
          exact (Option.some.inj hkinds).symm
        simp only [target, hpath, hd, hi, hi', hkind, Bool.false_eq_true, if_false]

end BuildRequest.IsWalked

/-! ## Steady builders -/

namespace Builder

variable {σ : Type}

/-- What requests that are asked make of what a builder remembers. -/
def Advances (b : Builder σ) (asked : BuildRequest → Prop) (x y : σ) : Prop :=
  ∃ r, asked r ∧ (b.build r x).2 = y

/-- On requests that are asked a builder gives its records under the identity that is requested, and a module that it
has passed over it passes over from then on. -/
structure IsSteadyOn (b : Builder σ) (asked : BuildRequest → Prop) : Prop where
  identifies : ∀ r x o, asked r → (b.build r x).1.result = .ok (some o) → o.record.identity = r.identity
  passes_over : ∀ r r' x y, asked r → asked r' → r'.identity = r.identity → (b.build r x).1.result = .ok none →
    ReflTransGen (b.Advances asked) (b.build r x).2 y → (b.build r' y).1.result = .ok none

/-- What a table answers depends on the name only. -/
theorem isSteadyOn_ofTable (table : List (ModuleName × TableModule)) (asked : BuildRequest → Prop) :
    (ofTable table).IsSteadyOn asked where
  identifies _ _ _ _ h := identity_of_ofTable h
  passes_over r r' x y _ _ hid hnone _ := by
    have hname : r'.name = r.name := congrArg Identity.name hid
    simp only [ofTable, hname] at hnone ⊢
    cases hm : table.lookup r.name with
    | none => rfl
    | some m =>
      simp only [hm, TableModule.answer] at hnone ⊢
      cases herr : m.error with
      | some text => simp [herr] at hnone
      | none =>
        cases hbroken : m.broken with
        | true => simp
        | false => simp [herr, hbroken] at hnone

section Sources

variable {p : SearchPath} {t : FileTree} {r : BuildRequest} {x : List Identity}

/-- A module is passed over only if it is not remembered and its source cannot be read. -/
theorem of_passedOver (h : ((ofSources p t).build r x).1.result = .ok none) :
    (r.target t).1.identity ∉ x ∧ ∃ path, (r.target t).2 = some path ∧ ¬ t.Parses path := by
  have hx : (r.target t).1.identity ∉ x := by
    intro hmem
    simp [ofSources, hmem] at h
  refine ⟨hx, Classical.byContradiction fun hno => ?_⟩
  have hreads : ∀ path ∈ (r.target t).2, t.Parses path := fun path hpath =>
    Classical.byContradiction fun hnot => hno ⟨path, hpath, hnot⟩
  obtain ⟨o, ho⟩ := exists_build_of_reads hx hreads
  cases h.symm.trans ho

/-- Sources are steady on what walks ask for. -/
theorem isSteadyOn_ofSources (hw : t.workDir.isAbsolute = true) :
    (ofSources p t).IsSteadyOn (BuildRequest.IsWalked t) where
  identifies r x o hr ho := by
    rw [(given_of_ofSources ho).1]
    exact hr.identity_target hw
  passes_over r r' x y hr hr' hid hnone hsteps := by
    obtain ⟨hx, path, hsource, hparses⟩ := of_passedOver hnone
    -- under whichever spelling the module is asked for, it is passed over and not remembered
    have hagain : ∀ q y, q.IsWalked t → q.identity = r.identity → r.identity ∉ y →
        ((ofSources p t).build q y).1.result = .ok none ∧ ((ofSources p t).build q y).2 = y := by
      intro q y hq hqid hy
      refine build_of_not_parses ?_ ((hr.source_eq hq hqid).trans hsource) hparses hq.hidden
      rwa [hq.identity_target hw, hqid]
    rw [hr.identity_target hw] at hx
    rw [(hagain r x hr rfl hx).2] at hsteps
    refine (hagain r' y hr' hid ?_).1
    induction hsteps with
    | refl => exact hx
    | @tail y z _ hstep ih =>
      obtain ⟨q, hq, rfl⟩ := hstep
      by_cases hsame : q.identity = r.identity
      · rw [(hagain q y hq hsame ih).2]
        exact ih
      · have hb := sourceBuild p t q y
        generalize ((ofSources p t).build q y).1.result = result at hb
        generalize ((ofSources p t).build q y).2 = z at hb ⊢
        cases hb with
        | known | failed => exact ih
        | new =>
          rw [List.mem_cons, not_or, hq.identity_target hw]
          exact ⟨fun heq => hsame heq.symm, ih⟩

end Sources

end Builder

end ImportClosure
