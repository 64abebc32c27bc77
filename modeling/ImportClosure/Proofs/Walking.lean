import ImportClosure.Proofs.Moves

/-!
# Walks as runs of actions

Which actions a walk of explicit paths consists of, and what it leaves to be walked. A path asks about one module at most
(`FileTree.query?`); what became of it is told by `Engine.Visited`. What a directory or a pattern stands for does not depend
on the session (`FileTree.opened`, `FileTree.matched`).
-/

namespace ImportClosure

variable {σ : Type}

open Step

/-- A request asks for the module that a query is about. -/
def RecursionRequest.AsksFor (r : RecursionRequest) (q : Query) : Prop :=
  r.name = q.name ∧ r.file = q.file ∧ r.kind = q.kind

theorem RecursionRequest.AsksFor.identity_eq {r : RecursionRequest} {q : Query} (h : r.AsksFor q) :
    r.identity = q.identity := by
  obtain ⟨hname, hfile, _⟩ := h
  rw [identity, Query.identity, hname, hfile]

namespace FileTree

/-- What walking a path asks about, as a module of a package. -/
def query? (t : FileTree) (path : Path) (package : Option ModuleName) : Option Query :=
  (t.moduleAt? (ModuleFile.ofPath t.workDir path).path).map fun found =>
    ⟨.ofPath t.workDir path, .inPackage found.1 package, found.2, true⟩

/-- What a path stands for: itself, or the modules of a directory that is no package. -/
def opened (t : FileTree) (path : Path) (package : Option ModuleName) : Except IoError (List WalkItem) :=
  if t.isFile path || t.isRealPackage path then .ok [.single path package]
  else if !t.isDir path then .ok []
  else (t.list path).map fun names =>
    (names.filter (Engine.isTopLevel t path)).map fun name => .single (path.child name) none

/-- The files that a filename pattern stands for, bytecode apart. -/
def matched (t : FileTree) (text : String) : Except FileGlob.Fault (List WalkItem) :=
  (FilePattern.read text).map fun pattern =>
    ((t.matching pattern).filter fun p => !Text.endsWith p.text bytecodeSuffix && t.isFile p).map fun p => .single p none

variable {t : FileTree} {path : Path} {package : Option ModuleName} {text : String} {children : List WalkItem}

/-- A path stands for itself if it leads to a file or a real package, or else for nothing, or for names in the directory
that it leads to. -/
theorem opened_eq_ok (h : t.opened path package = .ok children) :
    (t.isFile path || t.isRealPackage path) = true ∧ children = [.single path package] ∨ children = [] ∨
      ∃ names, t.list path = .ok names ∧
        children = (names.filter (Engine.isTopLevel t path)).map fun name => .single (path.child name) none := by
  unfold opened at h
  split at h
  next hthere => exact Or.inl ⟨hthere, (Except.ok.inj h).symm⟩
  · right
    split at h
    · exact Or.inl (Except.ok.inj h).symm
    · right
      cases hl : t.list path with
      | error cause =>
        rw [hl] at h
        cases h
      | ok names =>
        rw [hl] at h
        exact ⟨names, rfl, (Except.ok.inj h).symm⟩

/-- A pattern stands for files that match it. -/
theorem matched_eq_ok (h : t.matched text = .ok children) : ∃ pattern, FilePattern.read text = .ok pattern ∧
    ∀ child ∈ children, ∃ p ∈ t.matching pattern, t.isFile p = true ∧ child = .single p none := by
  unfold matched at h
  cases hp : FilePattern.read text with
  | error fault =>
    rw [hp] at h
    cases h
  | ok pattern =>
    rw [hp] at h
    cases h
    refine ⟨pattern, rfl, fun child hmem => ?_⟩
    obtain ⟨p, hmatched, rfl⟩ := List.mem_map.1 hmem
    obtain ⟨hmatches, hfile⟩ := List.mem_filter.1 hmatched
    exact ⟨p, hmatches, (Bool.and_eq_true_iff.1 hfile).2, rfl⟩

end FileTree

namespace Action

/-- What may happen while a path is walked that may ask about a query. -/
def Visits (e : Engine σ) (query? : Option Query) : Action → Prop
  | remarked | rooted _ => True
  | decided q => query? = some q
  | fetched r => ∃ q reason, query? = some q ∧ r.AsksFor q ∧ e.Stands q (.included reason)
  | _ => False

/-- What may happen while explicit paths are walked. -/
def Walks (e : Engine σ) : Action → Prop
  | remarked | rooted _ => True
  | decided q => q.explicit = true
  | fetched r => ∃ q reason, q.explicit = true ∧ r.AsksFor q ∧ e.Stands q (.included reason)
  | _ => False

theorem Visits.walks {e : Engine σ} {t : FileTree} {path : Path} {package : Option ModuleName} {a : Action}
    (h : Visits e (t.query? path package) a) : Walks e a := by
  have hexplicit : ∀ q, t.query? path package = some q → q.explicit = true := by
    intro q hq
    obtain ⟨_, _, rfl⟩ := Option.map_eq_some_iff.1 hq
    rfl
  cases a with
  | remarked | rooted => trivial
  | decided q => exact hexplicit q h
  | fetched r =>
    obtain ⟨q, reason, hq, hr, hd⟩ := h
    exact ⟨q, reason, hexplicit q hq, hr, hd⟩
  | _ => exact h.elim

end Action

namespace Engine

/-- What a module that was included leaves to be walked: the members of a package, from the directory that it stands for. -/
def Registered (e : Engine σ) (m : ModuleRecord) (children : List WalkItem) : Prop :=
  m.isPackage = false ∧ children = [] ∨
    m.isPackage = true ∧ ∃ names, e.tree.list m.file.identity = .ok names ∧
      children = (names.filter (isMember e.tree m.file.identity)).map fun name =>
        .single (m.file.identity.child name) (some m.name)

/-- What walking a path has come to, in the session that it leaves. -/
inductive Visited (e : Engine σ) (path : Path) (package : Option ModuleName) : List WalkItem → Session σ → Prop where
  /-- No module is there. -/
  | nothing {s : Session σ} (hq : e.tree.query? path package = none) : Visited e path package [] s
  /-- The policy does not include the module. -/
  | denied {s : Session σ} {q : Query} {d : Decision} (hq : e.tree.query? path package = some q) (hd : e.Stands q d)
      (hno : d.isIncluded = false) : Visited e path package [] s
  /-- The builder passes the module over. -/
  | passedOver {s s₀ s₁ : Session σ} {q : Query} {r : RecursionRequest} (hq : e.tree.query? path package = some q)
      (hr : r.AsksFor q) (hc : Recursed e r false s₀ (.ok none) s₁) : Visited e path package [] s
  /-- The module is kept, and its members are left. -/
  | registered {s s₀ s₁ : Session σ} {q : Query} {reason : Reason} {r : RecursionRequest} {m : ModuleRecord}
      {children : List WalkItem} (hq : e.tree.query? path package = some q) (hd : e.Stands q (.included reason))
      (hr : r.AsksFor q) (hc : Recursed e r false s₀ (.ok (some m)) s₁) (hk : s.cache.find? m.identity = some m)
      (hm : e.Registered m children) : Visited e path package children s

variable {e : Engine σ} {s : Session σ} {allowed : Action → Prop}

/-! ## Single actions -/

theorem decide_leads {q : Query} (hs : e.Remembers s) (ha : allowed (.decided q)) :
    Leads e allowed (e.decide q) s fun d _ => e.Stands q d := by
  refine ⟨.single _ ha rfl, fun d s' h => ?_⟩
  exact e.stands_of_decide hs h

theorem recurse_leads {r : RecursionRequest} {signalled : Bool} (ha : allowed (.recursed r signalled)) :
    Leads e allowed (e.recurse r signalled) s fun found s' => ∃ s₁, Recursed e r signalled s₁ (.ok found) s' := by
  refine ⟨.single _ ha rfl, fun found s' h => ?_⟩
  obtain ⟨result, s₁, hr, hc⟩ := e.recursed r signalled s
  obtain ⟨rfl, rfl⟩ := Prod.mk.inj (hr.symm.trans h)
  exact ⟨s, hc⟩

theorem fetch_leads {r : RecursionRequest} (ha : allowed (.fetched r)) :
    Leads e allowed (e.fetch r) s fun found s' => ∃ s₀ s₁, Recursed e r false s₀ (.ok found) s₁ ∧ s'.cache = s₁.cache := by
  refine ⟨.single _ ha rfl, fun found s' h => ?_⟩
  obtain ⟨result, s₁, hc, hr⟩ := e.fetched r s
  obtain ⟨rfl, rfl⟩ := Prod.mk.inj (hr.symm.trans h)
  refine ⟨s, s₁, hc, ?_⟩
  cases found <;> rfl

theorem trace_leads (event : Event) (ha : allowed .remarked) :
    Leads e allowed (e.trace event) s fun _ s' => s'.cache = s.cache := by
  unfold trace
  split
  · exact .update .remarked ha ⟨_, _, _, rfl⟩ rfl
  · exact .pure rfl

theorem diagnose_leads (d : Diagnostic) (ha : allowed .remarked) :
    Leads e allowed (update fun s => s.diagnose d) s fun _ _ => True :=
  .act .remarked ha ⟨_, _, _, rfl⟩

/-! ## One item -/

theorem includeFailed_leads (path : Path) (ha : allowed .remarked) :
    Leads e allowed (includeFailed path) s fun children _ => children = [] := by
  unfold includeFailed
  exact .bind (diagnose_leads _ ha) fun _ _ _ _ => .pure rfl

/-- The directory of a package is what its file stands for. -/
theorem dir_of_openPackage {m : ModuleRecord} (hm : m.isPackage = true) {dir : Path} {s' : Session σ}
    (h : ends (openPackage m) s = (.ok dir, s')) : dir = m.file.identity := by
  unfold openPackage ModuleRecord.isNamespacePackage at h
  unfold ModuleFile.identity
  cases hi : m.file.isInitEntry with
  | false =>
    simp only [hi, hm, Bool.not_false, Bool.and_self, if_true] at h
    cases h
    rfl
  | true =>
    simp only [hi, hm, Bool.not_true, Bool.and_false, Bool.false_eq_true, if_false] at h
    obtain ⟨_, s₁, _, h⟩ := exists_of_ends_bind h
    split at h
    next found hfound =>
      cases h
      simp [hfound]
    next => cases h

theorem openPackage_leads {m : ModuleRecord} (hk : s.cache.find? m.identity = some m) (ha : allowed (.rooted m)) :
    Leads e allowed (openPackage m) s fun _ s' => s'.cache = s.cache := by
  unfold openPackage
  split
  · exact .pure rfl
  · refine .bind (.update (.rooted m) ha ⟨hk, rfl⟩ rfl) fun _ s₁ _ (hs₁ : s₁.cache = s.cache) => ?_
    split
    · exact .pure hs₁
    · exact .throw _

theorem namesIn_leads (dir : Path) :
    Leads e allowed (e.namesIn dir) s fun names s' => e.tree.list dir = .ok names ∧ s' = s := by
  unfold namesIn
  split
  next names hnames => exact .pure ⟨hnames, rfl⟩
  next => exact .throw _

theorem list_of_namesIn {dir : Path} {names : List String} {s' : Session σ}
    (h : ends (e.namesIn dir) s = (.ok names, s')) : e.tree.list dir = .ok names := by
  have hleads : Leads e (fun _ => True) (e.namesIn dir) s _ := namesIn_leads dir
  exact (hleads.2 names s' h).1

/-- Registering a module leaves its members, whatever the session is. -/
theorem registered_of_registerIncluded {m : ModuleRecord} {children : List WalkItem} {s' : Session σ}
    (h : ends (e.registerIncluded m) s = (.ok children, s')) : e.Registered m children := by
  unfold registerIncluded at h
  obtain ⟨_, _, _, h⟩ := exists_of_ends_bind h
  obtain ⟨_, _, _, h⟩ := exists_of_ends_bind h
  split at h
  next hp =>
    split at h
    · obtain ⟨_, _, hthrow, _⟩ := exists_of_ends_bind h
      cases hthrow
    · obtain ⟨dir, _, hdir, h⟩ := exists_of_ends_bind h
      obtain ⟨_, _, _, h⟩ := exists_of_ends_bind h
      obtain ⟨names, _, hnames, h⟩ := exists_of_ends_bind h
      obtain rfl := dir_of_openPackage hp hdir
      cases h
      exact Or.inr ⟨hp, names, list_of_namesIn hnames, rfl⟩
  next hp =>
    refine Or.inl ⟨by simpa using hp, ?_⟩
    split at h
    · obtain ⟨_, _, _, h⟩ := exists_of_ends_bind h
      cases h
      rfl
    · cases h
      rfl

/-- A module that is kept is not kept again. -/
theorem keep_eq {m : ModuleRecord} (h : s.cache.find? m.identity = some m) : (s.keep m).2 = s := by
  have hc : s.cache.add m = (m, s.cache) := by
    unfold Cache.add
    rw [show Handle.identity m = m.identity from rfl, h]
  simp only [Session.keep, hc]

theorem registerIncluded_leads {m : ModuleRecord} (hk : s.cache.find? m.identity = some m) (ha : allowed .remarked)
    (hroot : allowed (.rooted m)) :
    Leads e allowed (e.registerIncluded m) s fun children s' =>
      e.Registered m children ∧ s'.cache.find? m.identity = some m := by
  have hleads : Leads e allowed (e.registerIncluded m) s fun _ s' => s'.cache.find? m.identity = some m := by
    unfold registerIncluded
    refine .bind (trace_leads _ ha) fun _ s₁ _ hs₁ => ?_
    have hk₁ : s₁.cache.find? m.identity = some m := by rw [hs₁]; exact hk
    have hkeep : Leads e allowed (update fun s => (s.keep m).2) s₁ fun _ s' => s'.cache.find? m.identity = some m := by
      refine .of_ends_ok (ends_update _ s₁) ?_ ?_
      · rw [keep_eq hk₁]
        exact .refl s₁
      · rwa [keep_eq hk₁]
    refine .bind hkeep fun _ s₂ _ hk₂ => ?_
    dsimp only
    split
    · split
      · exact .throw_bind _ _
      · refine .bind (openPackage_leads hk₂ hroot) fun dir s₃ _ hs₃ => ?_
        refine .bind (trace_leads _ ha) fun _ s₄ _ hs₄ => ?_
        refine .bind (namesIn_leads dir) fun names s₅ _ ⟨_, hs₅⟩ => .pure ?_
        rwa [hs₅, hs₄, hs₃]
    · split
      · exact .bind (.update (.rooted m) hroot ⟨hk₂, rfl⟩ hk₂) fun _ _ _ hk₃ => .pure hk₃
      · exact .pure hk₂
  exact ⟨hleads.1, fun children s' h => ⟨registered_of_registerIncluded h, hleads.2 children s' h⟩⟩

theorem reportExtension_leads (name : ModuleName) (kind : ModuleKind) (ha : allowed .remarked) :
    Leads e allowed (e.reportExtension name kind) s fun _ _ => True := by
  unfold reportExtension
  split
  · exact diagnose_leads _ ha
  · exact .pure trivial

/-- Walking a path asks about the module that is there and fetches it if it is included. -/
theorem walkSingle_leads (hs : e.Remembers s) (path : Path) (package : Option ModuleName) :
    Leads e (Action.Visits e (e.tree.query? path package)) (e.walkSingle path package) s (e.Visited path package) := by
  unfold walkSingle
  refine .bind (trace_leads _ trivial) fun _ s₁ hm₁ _ => ?_
  split
  next hat => exact .pure (.nothing (by simp [FileTree.query?, hat]))
  next bare kind hat =>
    have hq : e.tree.query? path package = some ⟨.ofPath e.tree.workDir path, .inPackage bare package, kind, true⟩ := by
      simp [FileTree.query?, hat]
    refine .bind (reportExtension_leads _ _ trivial) fun _ s₂ hm₂ _ => ?_
    refine .bind (decide_leads ((hs.moves hm₁).moves hm₂) hq) fun d s₃ hm₃ hd => ?_
    cases d with
    | included reason =>
      refine .bind (fetch_leads ⟨_, reason, hq, ⟨rfl, rfl, rfl⟩, hd⟩) fun found s₄ _ ⟨s₀, s₁, hc, hcache⟩ => ?_
      cases found with
      | some m =>
        have hk : s₄.cache.find? m.identity = some m := by rw [hcache]; exact hc.find?_eq
        refine (registerIncluded_leads hk trivial trivial).weaken fun children s₅ _ ⟨hm, hk₅⟩ => ?_
        exact .registered hq hd ⟨rfl, rfl, rfl⟩ hc hk₅ hm
      | none =>
        refine (includeFailed_leads _ trivial).weaken fun children s₅ _ hnone => ?_
        rw [hnone]
        exact .passedOver hq ⟨rfl, rfl, rfl⟩ hc
    | excluded reason => exact .bind (diagnose_leads _ trivial) fun _ _ _ _ => .pure (.denied hq hd rfl)
    | undecided reason => exact .bind (diagnose_leads _ trivial) fun _ _ _ _ => .pure (.denied hq hd rfl)

theorem walkPath_leads (path : Path) (package : Option ModuleName) (ha : allowed .remarked) :
    Leads e allowed (e.walkPath path package) s fun children _ => e.tree.opened path package = .ok children := by
  unfold walkPath FileTree.opened
  refine .bind (trace_leads _ ha) fun _ _ _ _ => ?_
  split
  · exact .pure rfl
  · split
    · exact (includeFailed_leads path ha).weaken fun children _ _ h => by rw [h]
    · refine .bind (namesIn_leads path) fun names _ _ ⟨hnames, _⟩ => .pure ?_
      rw [hnames]
      rfl

theorem walkPattern_leads (text : String) (ha : allowed .remarked) :
    Leads e allowed (e.walkPattern text) s fun children _ => e.tree.matched text = .ok children := by
  unfold walkPattern FileTree.matched
  refine .bind (trace_leads _ ha) fun _ s₁ _ _ => ?_
  dsimp only
  split
  · exact .throw_bind _ _
  cases FilePattern.read text with
  | error fault => exact .throw _
  | ok pattern =>
    dsimp only
    split
    · exact .bind (diagnose_leads _ ha) fun _ _ _ _ => .pure rfl
    · exact .pure rfl

/-! ## Whole walks -/

theorem expand_leads (hs : e.Remembers s) (item : WalkItem) :
    Leads e (Action.Walks e) (e.expand item) s fun _ _ => True := by
  cases item with
  | single path package =>
    exact ((walkSingle_leads hs path package).mono fun a ha => ha.walks).weaken fun _ _ _ _ => trivial
  | path path package => exact (walkPath_leads path package trivial).weaken fun _ _ _ _ => trivial
  | pattern text => exact (walkPattern_leads text trivial).weaken fun _ _ _ _ => trivial

theorem walkStack_leads (bound : Nat) (items : List WalkItem) (hs : e.Remembers s) :
    Leads e (Action.Walks e) (e.walkStack bound items) s fun _ _ => True := by
  induction bound generalizing items s with
  | zero =>
    cases items with
    | nil => exact .pure trivial
    | cons item rest => exact .throw _
  | succ bound ih =>
    cases items with
    | nil => exact .pure trivial
    | cons item rest =>
      exact .bind (expand_leads hs item) fun children s₁ hm _ => ih (children ++ rest) (hs.moves hm)

/-- Walking is a run of the actions of a walk. -/
theorem walk_leads (hs : e.Remembers s) (item : WalkItem) :
    Leads e (Action.Walks e) (e.walk item) s fun _ _ => True :=
  .bind (expand_leads hs item) fun items _ hm _ => walkStack_leads _ items (hs.moves hm)

end Engine

end ImportClosure
