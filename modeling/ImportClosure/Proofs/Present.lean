import ImportClosure.Proofs.Roots
import ImportClosure.Proofs.Stops

/-!
# What is kept is there

Over an unchanging tree every module that is kept is that of a file or directory of the tree (`kept_modules_present`), since
whoever asks for a module has seen what it asks for, or reads it: imports and plugin rules look it up in the tree, walks
list directories and match patterns, and sources are read when they are built. What is named to a session as the entry, or
as a single module, is not looked at, though, if it is bytecode or an extension module: it is kept whether it is there or
not (`missing_bytecode_kept`).
-/

namespace ImportClosure

open Step

/-! ## Files of a tree -/

namespace FileTree

/-- The place one step further from a directory, if something stands there. Other than in following a path, it does not
count how long names are. -/
def stepTo? (t : FileTree) (place : Place) (step : String) : Option Place :=
  if t.content? place ≠ some .directory then none
  else if step == ".." then some place.dropLast
  else if (t.content? (place ++ [step])).isSome then some (place ++ [step])
  else none

/-- Whether something stands where the steps of a file lead to from the root. -/
def contains (t : FileTree) (f : ModuleFile) : Bool :=
  f.path.isAbsolute && ((f.path.steps.foldlM t.stepTo? []).bind t.content?).isSome

/-- The module at a path is a source, or its file is there. -/
def Shows (t : FileTree) (path : Path) : Prop :=
  let file := ModuleFile.ofPath t.workDir path
  ∀ found ∈ t.moduleAt? file.path, found.2 ≠ .source → t.contains file = true

instance (t : FileTree) (path : Path) : Decidable (t.Shows path) :=
  inferInstanceAs (Decidable (∀ found ∈ _, _))

variable {t : FileTree} {place place' : Place} {p dir : Path} {f : ModuleFile} {kind : ModuleKind} {names : List String}
  {name : String}

/-- Whoever can follow a step can take it. -/
theorem stepTo?_of_follow (hname : Path.IsStep name) (h : t.follow place name = .ok place') :
    t.stepTo? place name = some place' := by
  have hidle : Path.isIdle name = false := hname.2
  unfold follow at h
  unfold stepTo?
  split at h
  · cases h
  · cases h
  · cases h
  next hdir =>
    rw [hidle, if_neg (by simp)] at h
    rw [if_neg (by simp [hdir])]
    split at h
    next hparent =>
      rw [if_pos hparent]
      exact congrArg some (Except.ok.inj h)
    next hparent =>
      rw [if_neg hparent]
      split at h
      · cases h
      · split at h
        next hthere =>
          rw [if_pos hthere]
          exact congrArg some (Except.ok.inj h)
        · cases h

theorem foldlM_stepTo? {steps : List String} (hsteps : ∀ name ∈ steps, Path.IsStep name)
    (h : steps.foldlM t.follow place = .ok place') : steps.foldlM t.stepTo? place = some place' := by
  induction steps generalizing place with
  | nil => exact congrArg some (Except.ok.inj h)
  | cons name steps ih =>
    rw [List.foldlM_cons] at h ⊢
    cases hf : t.follow place name with
    | error err => simp [hf, bind, Except.bind] at h
    | ok next =>
      rw [stepTo?_of_follow (hsteps name List.mem_cons_self) hf]
      exact ih (fun name hmem => hsteps name (List.mem_cons_of_mem _ hmem)) (by simpa [hf, bind, Except.bind] using h)

variable (ht : t.IsWellFormed)

include ht

/-- Where a path leads to is where the steps of its file lead to. -/
theorem foldlM_stepTo?_of_locate (h : t.locate p = .ok place) :
    (ModuleFile.ofPath t.workDir p).path.isAbsolute = true ∧
      (ModuleFile.ofPath t.workDir p).path.steps.foldlM t.stepTo? [] = some place := by
  have habs := ModuleFile.isAbsolute_ofPath ht.isAbsolute (text_ne_of_locate h)
  exact ⟨habs, foldlM_stepTo? (fun _ hmem => Path.isStep_of_mem_steps habs hmem) (foldlM_steps_absolute ht h)⟩

/-- A tree contains every file that a path leads to. -/
theorem contains_of_exists? (h : t.exists? p = true) : t.contains (.ofPath t.workDir p) = true := by
  unfold exists? read? at h
  cases hl : t.locate p with
  | error err => simp [hl] at h
  | ok place =>
    obtain ⟨habs, hsteps⟩ := foldlM_stepTo?_of_locate ht hl
    unfold contains
    rw [habs, hsteps, Bool.true_and]
    simpa [hl] using h

theorem shows_of_exists? (h : t.exists? p = true) : t.Shows p :=
  fun _ _ _ => contains_of_exists? ht h

theorem Finds.contains (h : t.Finds f kind) : t.contains f = true := by
  obtain ⟨p, hp, rfl⟩ := h.has
  exact contains_of_exists? ht hp

/-- A tree contains what it lists, even if a path to it would be too long. -/
theorem contains_of_list (hl : t.list dir = .ok names) (hname : name ∈ names) :
    t.contains (.ofPath t.workDir (dir.child name)) = true := by
  obtain ⟨hstep, hne⟩ := (ht.names_of_list hl).2 name hname
  obtain ⟨place, hplace, rfl⟩ := exists_of_list hl
  have hdir : t.content? place = some .directory := by
    unfold list at hl
    simp only [hplace, bind, Except.bind] at hl
    split at hl <;> first | assumption | cases hl
  obtain ⟨habs, hsteps⟩ := foldlM_stepTo?_of_locate ht hplace
  have hchild : (ModuleFile.ofPath t.workDir (dir.child name)).path =
      (ModuleFile.ofPath t.workDir dir).path.child name :=
    Path.absolute_child ht.isAbsolute (text_ne_of_locate hplace) hstep
  have hentry : (t.content? (place ++ [name])).isSome = true := by
    have hmem := mem_childNames.1 ((List.mergeSort_perm _ _).mem_iff.1 hname)
    rw [← Bool.not_eq_false]
    exact fun hnone => not_mem_of_content? hnone hmem
  have hstepTo : t.stepTo? place name = some (place ++ [name]) := by
    rw [stepTo?, if_neg (by simp [hdir]), if_neg (by simpa using hne), if_pos hentry]
  unfold FileTree.contains
  rw [hchild, Path.steps_child habs hstep, Path.isAbsolute_child habs, Bool.true_and, List.foldlM_append, hsteps]
  simpa [hstepTo, bind] using hentry

theorem shows_of_list (hl : t.list dir = .ok names) (hname : name ∈ names) : t.Shows (dir.child name) :=
  fun _ _ _ => contains_of_list ht hl hname

/-- A tree contains a file that may be asked for if its path leads anywhere. -/
theorem Suits.contains (hf : t.Suits f kind) (h : t.exists? f.path = true) : t.contains f = true := by
  have hpath : ModuleFile.ofPath t.workDir f.path = f :=
    ModuleFile.ofPath_of_isCanonical (hf.isCanonical (text_ne_of_exists? h))
  rw [← hpath]
  exact contains_of_exists? ht h

end FileTree

/-! ## What is asked for -/

/-- An action that asks only for what may be asked for, and for nothing but sources that is not there. -/
def Action.Shows (t : FileTree) : Action → Prop
  | recursed r _ | fetched r => t.Suits r.file r.kind ∧ (r.kind ≠ .source → t.contains r.file = true)
  | entered path => t.Shows path
  | _ => True

/-- An item that, if it is a single module, is a source or is there. -/
def WalkItem.Shows (t : FileTree) : WalkItem → Prop
  | .single p _ => t.Shows p
  | .path _ _ | .pattern _ => True

/-- An operation that names no single module but sources that is not there. -/
def Operation.Shows (t : FileTree) : Operation → Prop
  | addEntry path => t.Shows path
  | walk item => item.Shows t
  | consider _ edges => ∀ edge ∈ edges, edge.Suits t ∧ ∀ file ∈ edge.file, t.contains file = true
  | recurse r _ => t.Suits r.file r.kind ∧ (r.kind ≠ .source → t.contains r.file = true)
  | seed .. | pass | run _ | decide _ => True

/-- What is built for a request that may be made is there, if anything but a source is. -/
theorem BuildRequest.contains_target {p : SearchPath} {t : FileTree} {r : BuildRequest} {uses : List ImportEdge}
    (ht : t.IsWellFormed) (hr : t.Suits r.file r.kind) (hthere : r.kind ≠ .source → t.contains r.file = true)
    (hy : p.Yields t r uses) : t.contains (r.target t).1.file = true := by
  have hparses : ∀ path, (r.target t).2 = some path → t.Parses path := fun _ => hy.parses
  unfold target at hparses ⊢
  by_cases hd : t.isDir r.file.path = true
  · by_cases hi : t.hasInitEntry r.file.path = true
    · simp only [hd, hi, if_true]
      exact FileTree.contains_of_exists? ht (FileTree.exists?_of_isFile hi)
    · simp only [hd, hi, if_true, Bool.false_eq_true, if_false]
      exact hr.contains ht (FileTree.exists?_of_isDir hd)
  · by_cases hi : r.file.isInitEntry = true
    · simp only [hd, hi, if_true, Bool.false_eq_true, if_false] at hparses ⊢
      exact hr.contains ht (hparses _ rfl).exists?
    · simp only [hd, hi, Bool.false_eq_true, if_false] at hparses ⊢
      by_cases hkind : r.kind = .source
      · exact hr.contains ht (hparses _ (if_pos hkind)).exists?
      · exact hthere hkind

/-! ## Sessions -/

namespace Engine

variable {e : Engine (List Identity)} {p : SearchPath} {s s' : Session (List Identity)}

/-- An engine over the sources of its tree whose plugins declare only what is there. -/
structure Presents (e : Engine (List Identity)) (p : SearchPath) : Prop extends e.Serves p where
  declared : ∀ m imports, e.policy.plugins.implicitImports m = .ok imports → ∀ i ∈ imports, ∀ file ∈ i.file,
    e.tree.contains file = true

/-- What holds of a session in which nothing but sources was asked for that is not there. -/
structure Present (e : Engine (List Identity)) (s : Session (List Identity)) : Prop where
  backed : e.Backed s
  kept : ∀ m ∈ s.cache.modules, e.tree.contains m.file = true
  pending : ∀ m ∈ s.pending, ∀ edge ∈ m.uses, ∀ file ∈ edge.file, e.tree.contains file = true

theorem Present.fresh (e : Engine (List Identity)) : e.Present (.fresh []) where
  backed := .fresh e
  kept _ hm := nomatch hm
  pending _ hm := nomatch hm

/-- Plugin rules over the tree of the engine declare only what is there. -/
theorem Presents.of_rules {rules : PluginRules} (hb : e.builder = .ofSources p e.tree) (ht : e.tree.IsWellFormed)
    (hp : e.policy.plugins = rules.plugins) (hr : rules.tree = e.tree) : e.Presents p where
  toServes := .of_rules hb ht hp hr
  declared _ _ h _ hi file hfile := by
    rw [hp] at h
    rw [← hr] at ht ⊢
    exact (PluginRules.finds_of_mem_implicitImports h hi file hfile).contains ht

/-- The build that an action leads to is for a source or for what is there. -/
theorem Presents.of_build? (he : e.Presents p) {a : Action} {r : BuildRequest} (ha : a.Shows e.tree)
    (h : a.build? e = some r) : e.tree.Suits r.file r.kind ∧ (r.kind ≠ .source → e.tree.contains r.file = true) := by
  cases a with
  | recursed | fetched =>
    cases h
    exact ha
  | entered path =>
    cases h
    refine ⟨suits_entryBuild he.tree path, fun hkind => ?_⟩
    cases hat : e.tree.moduleAt? (ModuleFile.ofPath e.tree.workDir path).path with
    | none => simp [entryBuild, hat] at hkind
    | some found => exact ha found hat (by simpa [entryBuild, hat] using hkind)
  | _ => cases h

theorem Present.move (he : e.Presents p) (h : e.Present s) {a : Action} (ha : a.Shows e.tree) (hm : Move e a s s') :
    e.Present s' := by
  have hbacked : e.Backed s' := by
    refine h.backed.move he.toServes ?_ hm
    cases a with
    | recursed | fetched => exact ha.1
    | _ => trivial
  rcases hm.same_or_brings with ⟨hcache, hpending, _⟩ | ⟨r, hbuild, hbrings⟩
  · exact ⟨hbacked, hcache ▸ h.kept, fun m hmem => h.pending m (hpending hmem)⟩
  · obtain ⟨hr, hthere⟩ := he.of_build? ha hbuild
    obtain ⟨_, hkept, hpending⟩ := h.backed.new_of_brings he.toServes hbrings
    refine ⟨hbacked, fun k hk => ?_, fun k hk edge hedge file hfile => ?_⟩
    · rcases hkept k hk with hk | ⟨⟨uses, hyields⟩, hof⟩
      · exact h.kept k hk
      · have htarget := BuildRequest.contains_target he.tree hr hthere hyields
        rcases hof with rfl | rfl <;> exact htarget
    · rcases hpending k hk with hk | hnone | hyields
      · exact h.pending k hk edge hedge file hfile
      · rw [hnone] at hedge
        cases hedge
      · exact (BuildRequest.finds_of_yields hyields edge hedge file hfile).contains he.tree

/-! ## Walks -/

/-- Walking an item asks for nothing but sources that is not there, and leaves only what is there. -/
theorem expand_shows (he : e.Presents p) (hs : e.Present s) {item : WalkItem} (hitem : item.Shows e.tree) :
    Leads e (Action.Shows e.tree) (e.expand item) s fun children _ => ∀ child ∈ children, child.Shows e.tree := by
  have ht := he.tree
  cases item with
  | single path package =>
    have hvisits : ∀ a, Action.Visits e (e.tree.query? path package) a → a.Shows e.tree := by
      intro a ha
      cases a with
      | fetched r =>
        obtain ⟨q, _, hq, ⟨_, hfile, hkind⟩, _⟩ := ha
        obtain ⟨⟨bare, kind⟩, hat, rfl⟩ := Option.map_eq_some_iff.1 hq
        show e.tree.Suits r.file r.kind ∧ (r.kind ≠ .source → e.tree.contains r.file = true)
        rw [hfile, hkind]
        exact ⟨FileTree.suits_of_moduleAt? ht hat, hitem (bare, kind) hat⟩
      | recursed | entered => exact ha.elim
      | _ => trivial
    refine ((walkSingle_leads hs.backed.remembers path package).mono hvisits).weaken fun children s' _ h => ?_
    cases h with
    | registered _ _ _ _ _ hm' =>
      intro child hmem
      rcases hm' with ⟨_, rfl⟩ | ⟨_, names, hl, rfl⟩
      · cases hmem
      · obtain ⟨name, hname, rfl⟩ := List.mem_map.1 hmem
        exact FileTree.shows_of_list ht hl (List.mem_filter.1 hname).1
    | _ => exact fun _ hmem => nomatch hmem
  | path path package =>
    refine (walkPath_leads path package trivial).weaken fun children _ _ h child hmem => ?_
    rcases FileTree.opened_eq_ok h with ⟨hthere, rfl⟩ | rfl | ⟨names, hl, rfl⟩
    · rw [List.mem_singleton.1 hmem]
      refine FileTree.shows_of_exists? ht ?_
      rcases Bool.or_eq_true_iff.1 hthere with hfile | hpackage
      · exact FileTree.exists?_of_isFile hfile
      · exact FileTree.exists?_of_isDir (Bool.and_eq_true_iff.1 hpackage).1
    · cases hmem
    · obtain ⟨name, hname, rfl⟩ := List.mem_map.1 hmem
      exact FileTree.shows_of_list ht hl (List.mem_filter.1 hname).1
  | pattern text =>
    refine (walkPattern_leads text trivial).weaken fun children _ _ h child hmem => ?_
    obtain ⟨_, _, hmatches⟩ := FileTree.matched_eq_ok h
    obtain ⟨path, _, hfile, rfl⟩ := hmatches child hmem
    exact FileTree.shows_of_exists? ht (FileTree.exists?_of_isFile hfile)

/-! ## Operations -/

/-- Following the imports of a module asks only for what is there. -/
theorem shows_of_follows (he : e.Presents p) {m : ModuleRecord} {edges : List ImportEdge}
    (hedges : ∀ edge ∈ edges, edge.Suits e.tree ∧ ∀ file ∈ edge.file, e.tree.contains file = true) {a : Action}
    (ha : Action.Follows e m (e.Asks m edges) a) : a.Shows e.tree := by
  cases a with
  | recursed r signalled =>
    refine ⟨suits_of_follows he.toServes (fun edge hedge => (hedges edge hedge).1) ha, fun _ => ?_⟩
    obtain ⟨_, q, _, hq, ⟨_, hfile, _⟩, _⟩ := ha
    rw [hfile]
    rcases hq.exists_file with ⟨edge, hedge, hmem, _⟩ | ⟨imports, hi, i, himport, hmem, _⟩
    · exact (hedges edge hedge).2 q.file hmem
    · exact he.declared m imports hi i himport q.file hmem
  | fetched | entered => exact ha.elim
  | _ => trivial

/-- A session that is named nothing but sources that is not there goes on like that. -/
theorem confines_shows (he : e.Presents p) : e.Confines (Action.Shows e.tree) (WalkItem.Shows e.tree) e.Present where
  remembers _ hs := hs.backed.remembers
  move _ _ _ ha hm hs := hs.move he ha hm
  quiet a ha := by
    cases a with
    | remarked | rooted | used | decided => trivial
    | _ => cases ha
  drained := trivial
  expand _ _ hs hitem := expand_shows he hs hitem
  pending _ hs m hm _ ha :=
    shows_of_follows he (fun edge hedge => ⟨hs.backed.pending m hm edge hedge, hs.pending m hm edge hedge⟩) ha

end Engine

section Operations

variable {e : Engine (List Identity)} {p : SearchPath}

theorem Operation.Shows.within (he : e.Presents p) {op : Operation} (hop : op.Shows e.tree) :
    op.Within e (Action.Shows e.tree) (WalkItem.Shows e.tree) := by
  cases op with
  | consider m edges => exact fun _ ha => Engine.shows_of_follows he hop ha
  | seed includes base =>
    intro item hitem
    rcases List.mem_append.1 hitem with hitem | hitem <;> obtain ⟨_, _, rfl⟩ := List.mem_map.1 hitem <;> trivial
  | pass | run | decide => trivial
  | _ => exact hop

/-- After such operations all that is kept and all that is queued is there. -/
theorem Engine.Present.after (he : e.Presents p) {ops : List Operation} (hops : ∀ op ∈ ops, op.Shows e.tree) :
    e.Present (e.after ops (.fresh [])) :=
  (confines_shows he).after (fun op hop => (hops op hop).within he) (.fresh e)

end Operations

/-- Over sources and under plugin rules, whatever the policy: after any operations, failed ones included, that name no
single module but sources that is not there, every module that is kept is a file or directory of the tree, and so is every
root, and every module of the report of a run. -/
theorem kept_modules_present {e : Engine (List Identity)} {p : SearchPath} {rules : PluginRules}
    (hb : e.builder = .ofSources p e.tree) (ht : e.tree.IsWellFormed) (hp : e.policy.plugins = rules.plugins)
    (hr : rules.tree = e.tree) {ops : List Operation} (hops : ∀ op ∈ ops, op.Shows e.tree) :
    let s := e.after ops (.fresh [])
    (∀ m ∈ s.cache.modules, e.tree.contains m.file = true) ∧
      (∀ m ∈ s.registry.roots, e.tree.contains m.file = true) ∧
      ∀ bound report s', ends (e.runToFixedPoint bound) s = (.ok (some report), s') →
        ∀ module ∈ report.modules, e.tree.contains module.record.file = true := by
  intro s
  have he : e.Presents p := .of_rules hb ht hp hr
  have hremembers : e.Remembers (.fresh []) := .of_nil rfl
  have hroots : s.KeepsRoots :=
    (Engine.moves_after hremembers ops).keeps (fun _ _ _ _ hm h => h.move hm) fun _ hm => nomatch hm
  have hkept : ∀ m ∈ s.cache.modules, e.tree.contains m.file = true := (Engine.Present.after he hops).kept
  refine ⟨hkept, fun m hm => hkept m (List.mem_of_find?_eq_some (hroots m hm)), fun bound report s' hrun module hmem => ?_⟩
  obtain ⟨passes, rfl⟩ := Engine.exists_report_of_runToFixedPoint hrun
  obtain ⟨m, hm, rfl⟩ := List.mem_map.1 hmem
  -- the run is one more operation, and the report lists what is kept behind it
  have hs' : e.after (ops ++ [.run bound]) (.fresh []) = s' := by
    rw [Engine.after, List.foldl_append]
    exact (snd_ends_drop _ _).trans (congrArg Prod.snd hrun)
  have hmore : ∀ op ∈ ops ++ [.run bound], op.Shows e.tree := by
    intro op hop
    rcases List.mem_append.1 hop with hop | hop
    · exact hops op hop
    · rw [List.mem_singleton.1 hop]
      trivial
  have hpresent := (Engine.Present.after he hmore).kept
  rw [hs'] at hpresent
  exact hpresent m (List.mem_mergeSort.1 hm)

/-- A program that imports bytecode, beside old bytecode. -/
def FileTree.withBytecode : FileTree :=
  (empty ⟨"/w"⟩).addAll [
    (["w", "main.py"], .text "import tool\n"),
    (["w", "old.pyc"], .unreadable .notText),
    (["lib", "tool.pyc"], .unreadable .notText)]

/-- Both are kept with the program, and nothing that is missing. -/
theorem kept_modules_present_withBytecode :
    let tree := FileTree.withBytecode
    let rules : PluginRules := { PluginRules.silent tree with search := ⟨[⟨"/lib"⟩], []⟩ }
    let e : Engine _ := ⟨.followingAll rules.plugins, tree, .ofSources ⟨[⟨"/lib"⟩], []⟩ tree⟩
    let ops : List Operation := [.addEntry ⟨"main.py"⟩, .walk (.single ⟨"old.pyc"⟩ none),
      .walk (.single ⟨"missing.py"⟩ none), .walk (.path ⟨"missing.pyc"⟩ none), .pass]
    (e.after ops (.fresh [])).cache.modules.map ModuleRecord.name = [.main, ⟨"old"⟩, ⟨"tool"⟩] ∧
      ∀ m ∈ (e.after ops (.fresh [])).cache.modules, tree.contains m.file = true := by
  intro tree rules e ops
  have ht : tree.IsWellFormed := (FileTree.isWellFormed_empty (by decide) (by decide)).addAll (by decide)
  have hnamed : ∀ name ∈ ["main.py", "old.pyc", "missing.py"], tree.Shows ⟨name⟩ := by decide +kernel
  have hops : ∀ op ∈ ops, op.Shows e.tree :=
    List.forall_mem_cons.2 ⟨hnamed "main.py" (by decide), List.forall_mem_cons.2 ⟨hnamed "old.pyc" (by decide),
      List.forall_mem_cons.2 ⟨hnamed "missing.py" (by decide), List.forall_mem_cons.2 ⟨trivial,
        List.forall_mem_singleton.2 trivial⟩⟩⟩⟩
  exact ⟨by decide +kernel, (kept_modules_present (e := e) rfl ht rfl rfl hops).1⟩

/-- Where nothing is there, bytecode that is named as a single module is kept and becomes a root, and bytecode that is named
as the entry is kept as well, while a source is not kept and a path is not walked. -/
theorem missing_bytecode_kept :
    let tree := FileTree.empty ⟨"/w"⟩
    let rules := PluginRules.silent tree
    let e : Engine _ := ⟨.followingAll rules.plugins, tree, .ofSources {} tree⟩
    let missing (name : ModuleName) : ModuleRecord := { name, file := ⟨⟨"/w/missing.pyc"⟩⟩, kind := .bytecode }
    let walked (item : WalkItem) := e.next (.fresh []) (.walk item)
    tree.contains ⟨⟨"/w/missing.pyc"⟩⟩ = false ∧
      (walked (.single ⟨"missing.pyc"⟩ none)).cache.modules = [missing ⟨"missing"⟩] ∧
      (walked (.single ⟨"missing.pyc"⟩ none)).registry.roots = [missing ⟨"missing"⟩] ∧
      (e.next (.fresh []) (.addEntry ⟨"missing.pyc"⟩)).cache.modules = [{ missing .main with isTop := true }] ∧
      (walked (.single ⟨"missing.py"⟩ none)).cache.modules = [] ∧
      (walked (.path ⟨"missing.pyc"⟩ none)).cache.modules = [] := by
  decide +kernel

end ImportClosure
