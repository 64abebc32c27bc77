import ImportClosure.Proofs.Backed
import ImportClosure.Proofs.Discovery
import ImportClosure.Proofs.Forbidden
import ImportClosure.Proofs.Traversal

/-!
# What stops a session

Over a tree nothing but a forbidden import stops a session once its entry has been built
(`only_forbidden_imports_stop`): a source that cannot be read or parsed is passed over, and a package that is walked is
neither an extension nor without a directory. A walk always comes to its end, since what is left to be walked gets lighter
(`Engine.walked_walk`). A run does if the relative imports of the tree lead down; if they do not, it need not
(`run_never_returns_selfImport`).
-/

namespace ImportClosure

variable {σ : Type}

open Step

/-! ## Forbidden imports among the errors -/

/-- An error that is a forbidden import. -/
def Error.IsForbidden (err : Error) : Prop :=
  ∃ what, err = .forbidden what

/-- It stays one when it is attributed. -/
theorem Error.IsForbidden.withSite {err : Error} (h : err.IsForbidden) (site : ImportSite) :
    (err.withSite site).IsForbidden := by
  obtain ⟨what, rfl⟩ := h
  unfold Error.withSite
  by_cases hsite : what.site = .unattributed
  · simp only [hsite, if_true]
    exact ⟨_, rfl⟩
  · simp only [hsite, if_false]
    exact ⟨_, rfl⟩

/-- From a session a step ends in no error but a forbidden import. -/
def Step.ForbidsOnly {α : Type} (x : Step σ α) (s : Session σ) : Prop :=
  ∀ err s', ends x s = (.error err, s') → err.IsForbidden

namespace Step.ForbidsOnly

variable {α β : Type} {s s' : Session σ}

/-- A step that comes to a value. -/
theorem of_ends_ok {x : Step σ α} {a : α} (h : ends x s = (.ok a, s')) : ForbidsOnly x s := by
  intro err s₁ herr
  rw [h] at herr
  cases herr

theorem pure (a : α) : ForbidsOnly (Pure.pure a) s :=
  of_ends_ok (ends_pure a s)

theorem update (f : Session σ → Session σ) : ForbidsOnly (Engine.update f) s :=
  of_ends_ok (ends_update f s)

/-- A step behind another, from where that has led to. -/
theorem bind {x : Step σ α} {f : α → Step σ β} (hx : ForbidsOnly x s)
    (hf : ∀ a s₁, ends x s = (.ok a, s₁) → ForbidsOnly (f a) s₁) : ForbidsOnly (x >>= f) s := by
  intro err s' h
  rcases error_of_ends_bind h with h | ⟨a, s₁, ha, h⟩
  · exact hx err s' h
  · exact hf a s₁ ha err s' h

end Step.ForbidsOnly

namespace Engine

/-! ## Asking for modules -/

section Asking

variable {e : Engine (List Identity)} {p : SearchPath} {s : Session (List Identity)}

/-- Over sources a module that is included is refused by the plugins only: the builder passes over what it cannot read. -/
theorem Refuses.isForbidden (hb : e.builder = .ofSources p e.tree) {r : RecursionRequest} {err : Error}
    (h : e.Refuses r err) : err.IsForbidden := by
  cases h with
  | plugins => exact ⟨_, rfl⟩
  | builder x hx =>
    rw [hb] at hx
    exact absurd hx (Builder.result_ne_error_of_hidden rfl err)

/-- To fetch a source fails only if it is forbidden. -/
theorem fetch_forbidsOnly (hb : e.builder = .ofSources p e.tree) (r : RecursionRequest) :
    ForbidsOnly (e.fetch r) s := by
  unfold fetch
  refine .bind (fun err s' h => (refuses_of_recurse h).1.isForbidden hb) fun found s₁ _ => ?_
  cases found with
  | none => exact .pure none
  | some m => exact .bind (.update _) fun _ _ _ => .pure (some m)

/-- A module that is not kept, and whose source cannot be read or parsed, is passed over unless the plugins refuse it. -/
theorem ends_recurse_of_not_parses (he : e.Serves p) (hs : e.Backed s) {r : RecursionRequest} (signalled : Bool)
    {source : Path} (hnew : ¬ s.Keeps r.identity) (hfree : ¬ s.Keeps (r.toBuild.target e.tree).1.identity)
    (hallowed : e.policy.plugins.recursion r = .ok ()) (hsource : (r.toBuild.target e.tree).2 = some source)
    (hread : ¬ e.tree.Parses source) : ∃ s', ends (e.recurse r signalled) s = (.ok none, s') ∧ s.Same s' := by
  have hx : (r.toBuild.target e.tree).1.identity ∉ s.builder := fun hmem => hfree (hs.known _ hmem)
  have hnone := (Builder.build_of_not_parses (p := p) hx hsource hread rfl).1
  rw [← he.builder] at hnone
  obtain ⟨result, s', hends, hc⟩ := e.recursed r signalled s
  cases hc with
  | known hk => exact absurd (Option.isSome_iff_exists.2 ⟨_, hk⟩) hnew
  | refused _ hp =>
    rw [hallowed] at hp
    cases hp
  | passedOver => exact ⟨_, hends, fun _ => Iff.rfl, rfl, rfl, rfl⟩
  | failed _ _ hb | built _ _ hb =>
    rw [hnone] at hb
    cases hb

/-- Whatever is queued, a pass stops at forbidden imports only. -/
theorem runPass_forbidsOnly (hb : e.builder = .ofSources p e.tree) : ForbidsOnly e.runPass s := by
  intro err s' h
  obtain ⟨m, _, hfailure⟩ := failure_of_runPass h
  cases hfailure with
  | atImport _ _ hq =>
    obtain ⟨_, r, _, hr⟩ := hq
    exact (hr.isForbidden hb).withSite _
  | declaring => exact Error.IsForbidden.withSite ⟨_, rfl⟩ _
  | implicit _ _ _ hq =>
    obtain ⟨_, r, _, hr⟩ := hq
    exact (hr.isForbidden hb).withSite _

/-- A run to the fixed point fails only at what is forbidden. -/
theorem runToFixedPoint_forbidsOnly (hb : e.builder = .ofSources p e.tree) (bound : Nat) :
    ForbidsOnly (e.runToFixedPoint bound) s := by
  intro err s' h
  obtain ⟨s₁, _, hpass⟩ := exists_of_runToFixedPoint_error h
  exact runPass_forbidsOnly hb err s' hpass

end Asking

/-! ## Walking -/

section Walking

variable {e : Engine σ} {s : Session σ}

theorem trace_forbidsOnly (event : Event) : ForbidsOnly (e.trace event) s := by
  unfold trace
  split
  · exact .update _
  · exact .pure _

theorem includeFailed_forbidsOnly (path : Path) : ForbidsOnly (includeFailed path) s :=
  .bind (.update _) fun _ _ _ => .pure _

theorem reportExtension_forbidsOnly (name : ModuleName) (kind : ModuleKind) :
    ForbidsOnly (e.reportExtension name kind) s := by
  unfold reportExtension
  split
  · exact .update _
  · exact .pure _

theorem decide_forbidsOnly (q : Query) : ForbidsOnly (e.decide q) s := by
  obtain ⟨d, s', h⟩ := e.exists_ends_decide q s
  exact .of_ends_ok h

/-- The names of a directory that can be listed are got without an error. -/
theorem namesIn_forbidsOnly {dir : Path} (h : ∃ names, e.tree.list dir = .ok names) : ForbidsOnly (e.namesIn dir) s := by
  obtain ⟨names, hnames⟩ := h
  unfold namesIn
  rw [hnames]
  exact .pure names

/-- An init entry has a directory, and everything else is one that is opened. -/
theorem openPackage_forbidsOnly {m : ModuleRecord} (hp : m.isPackage = true) : ForbidsOnly (openPackage m) s := by
  unfold openPackage ModuleRecord.isNamespacePackage
  cases hi : m.file.isInitEntry with
  | false =>
    simp only [hp, Bool.not_false, Bool.and_self, if_true]
    exact .pure _
  | true =>
    simp only [Bool.not_true, Bool.and_false, Bool.false_eq_true, if_false]
    refine .bind (.update _) fun _ _ _ => ?_
    obtain ⟨dir, hdir⟩ := Path.exists_parent? (by simpa [ModuleFile.isInitEntry] using hi)
    rw [hdir]
    exact .pure dir

/-- A module is registered without an error if it has a directory as long as it is a package. -/
theorem registerIncluded_forbidsOnly {m : ModuleRecord} (hm : m.isPackage = true → m.IsHoused e.tree) :
    ForbidsOnly (e.registerIncluded m) s := by
  unfold registerIncluded
  refine .bind (trace_forbidsOnly _) fun _ _ _ => .bind (.update _) fun _ s₁ _ => ?_
  dsimp only
  split
  next hp =>
    have hhoused := hm hp
    rw [if_neg hhoused.kind_ne]
    refine .bind (openPackage_forbidsOnly hp) fun dir s₃ hdir => .bind (trace_forbidsOnly _) fun _ s₄ _ => ?_
    obtain rfl := dir_of_openPackage hp hdir
    exact .bind (namesIn_forbidsOnly hhoused.directory) fun _ _ _ => .pure _
  next =>
    split
    · exact .bind (.update _) fun _ _ _ => .pure _
    · exact .pure _

/-- What a path stands for is found without an error. -/
theorem walkPath_forbidsOnly (path : Path) (package : Option ModuleName) : ForbidsOnly (e.walkPath path package) s := by
  unfold walkPath
  refine .bind (trace_forbidsOnly _) fun _ s₁ _ => ?_
  split
  · exact .pure _
  · split
    · exact includeFailed_forbidsOnly path
    next hdir => exact .bind (namesIn_forbidsOnly (FileTree.exists_list_of_isDir (by simpa using hdir))) fun _ _ _ => .pure _

end Walking

section Walks

variable {e : Engine (List Identity)} {p : SearchPath} {s s' : Session (List Identity)} {item : WalkItem}
  {items : List WalkItem}

/-- Walking a path stops at forbidden imports only, since the module that is got is backed by the tree. -/
theorem walkSingle_forbidsOnly (he : e.Serves p) (hs : e.Backed s) (path : Path) (package : Option ModuleName) :
    ForbidsOnly (e.walkSingle path package) s := by
  unfold walkSingle
  refine .bind (trace_forbidsOnly _) fun _ s₁ h₁ => ?_
  have hs₁ := hs.of_leads he (trace_leads _ trivial) h₁
  split
  · exact .pure []
  next bare kind hat =>
    refine .bind (reportExtension_forbidsOnly _ _) fun _ s₂ h₂ => ?_
    have hs₂ := hs₁.of_leads he (reportExtension_leads _ _ trivial) h₂
    refine .bind (decide_forbidsOnly _) fun d s₃ h₃ => ?_
    have hs₃ := hs₂.of_leads he (decide_leads hs₂.remembers trivial) h₃
    cases d with
    | included reason =>
      refine .bind (fetch_forbidsOnly he.builder _) fun found s₄ h₄ => ?_
      have hfetch : Leads e (Action.Suits e.tree)
          (e.fetch ⟨.inPackage bare package, .ofPath e.tree.workDir path, kind, none, none, reason.text⟩) s₃ _ :=
        fetch_leads (FileTree.suits_of_moduleAt? he.tree hat)
      cases found with
      | none => exact includeFailed_forbidsOnly _
      | some m =>
        obtain ⟨_, _, hc, hcache⟩ := hfetch.2 _ _ h₄
        have hm := (hs₃.of_leads he hfetch h₄).of_find? (hcache ▸ hc.find?_eq)
        exact registerIncluded_forbidsOnly hm.housed
    | excluded reason => exact .bind (.update _) fun _ _ _ => .pure _
    | undecided reason => exact .bind (.update _) fun _ _ _ => .pure _

/-- Walking an item stops at forbidden imports only, unless it is a pattern. -/
theorem expand_forbidsOnly (he : e.Serves p) (hs : e.Backed s) (hitem : ∀ text, item ≠ .pattern text) :
    ForbidsOnly (e.expand item) s := by
  cases item with
  | single path package => exact walkSingle_forbidsOnly he hs path package
  | path path package => exact walkPath_forbidsOnly path package
  | pattern text => exact absurd rfl (hitem text)

/-- A walk of items that are not heavier than its bound stops at forbidden imports only. -/
theorem walkStack_forbidsOnly (he : e.Serves p) {bound : Nat} (hs : e.Backed s)
    (hitems : ∀ item ∈ items, item.isSingle = true) (hbound : (items.map e.tree.weight).sum ≤ bound) :
    ForbidsOnly (e.walkStack bound items) s := by
  induction bound generalizing items s with
  | zero =>
    cases items with
    | nil => exact .pure _
    | cons item rest =>
      -- every item weighs something
      have hpos := e.tree.weight_pos item
      rw [List.map_cons, List.sum_cons] at hbound
      omega
  | succ bound ih =>
    cases items with
    | nil => exact .pure _
    | cons item rest =>
      have hsingle := hitems item List.mem_cons_self
      refine .bind (expand_forbidsOnly he hs (by rintro text rfl; cases hsingle)) fun children s₁ h₁ => ?_
      have hexpand := expand_suits he hs item
      have hlighter := hexpand.2 _ _ h₁
      have hlt := hlighter.sum_lt hsingle
      rw [List.map_cons, List.sum_cons] at hbound
      refine ih (hs.of_leads he hexpand h₁) (fun child hmem => ?_) ?_
      · rcases List.mem_append.1 hmem with hmem | hmem
        · exact hlighter.isSingle child hmem
        · exact hitems child (List.mem_cons_of_mem item hmem)
      · rw [List.map_append, List.sum_append]
        omega

/-- A walk of a path stops at forbidden imports only. -/
theorem walk_forbidsOnly (he : e.Serves p) (hs : e.Backed s) (hitem : ∀ text, item ≠ .pattern text) :
    ForbidsOnly (e.walk item) s := by
  refine .bind (expand_forbidsOnly he hs hitem) fun children s₁ h₁ => ?_
  have hexpand := expand_suits he hs item
  exact walkStack_forbidsOnly he (hs.of_leads he hexpand h₁) (hexpand.2 _ _ h₁).isSingle (e.tree.sum_weight_le children)

end Walks

/-! ## Walks come to their end -/

/-- The bound of a walk is none. -/
theorem walked_walk {e : Engine (List Identity)} {p : SearchPath} {s : Session (List Identity)} (he : e.Serves p)
    (hs : e.Backed s) (item : WalkItem) :
    e.Walked [item] s (ends (e.walk item) s).1 (ends (e.walk item) s).2 := by
  refine walked_walk_of_lighter (fun s item children s₁ hs h => ?_) hs item
  have hexpand := expand_suits he hs item
  exact ⟨hs.of_leads he hexpand h, hexpand.2 _ _ h⟩

end Engine

/-! ## Runs come to their end -/

/-- The modules that a session keeps, and those that the queued modules import. -/
def Session.asked (s : Session σ) : List Query :=
  (s.cache.modules.map fun m => ⟨m.file, m.name, m.kind, false⟩) ++
    s.pending.flatMap fun m => m.uses.filterMap ImportEdge.query?

section Runs

variable {e : Engine (List Identity)} {p : SearchPath} {declared : List Query} {most : Nat} {s : Session (List Identity)}

/-- Whatever a session has been through, it keeps the bounds of what it holds. -/
theorem Discovers.of_once (he : e.IsOverTree p declared most) (hd : s.asked ⊆ declared) (hs : e.Remembers s)
    (ho : Once e (fun x kept => ∀ i, kept i → i ∈ x) s) : Discovers e declared most s := by
  refine ⟨hs, ho, fun m hm q hq => .of_declared (hd ?_), fun i hi => ?_⟩
  · exact List.mem_append_right _ (List.mem_flatMap.2 ⟨m, hm, hq⟩)
  · obtain ⟨m, hm⟩ := Option.isSome_iff_exists.1 (ho.pushes.2 i hi)
    have hasked : e.tree.Asked declared m.name m.file := by
      refine FileTree.Asked.of_declared (q := ⟨m.file, m.name, m.kind, false⟩) (hd (List.mem_append_left _ ?_))
      exact List.mem_map_of_mem (List.mem_of_find?_eq_some hm)
    rw [← Cache.identity_of_find? hm]
    exact ⟨⟨he.most _ _ hasked, hasked.words⟩, m.file, hasked.mem_files, rfl⟩

/-- Wherever it begins, a run ends if the relative imports of the tree lead down. -/
theorem Engine.exists_least (hb : e.builder = .ofSources p e.tree) (hw : e.tree.workDir.isAbsolute = true)
    (hdown : e.tree.importsLeadDown = true) (hplugins : e.policy.plugins.DeclaresFrom declared) (hs : e.Remembers s)
    (ho : Once e (fun x kept => ∀ i, kept i → i ∈ x) s) :
    ∃ least, ∀ bound, least < bound → (ends (e.runToFixedPoint bound) s).1 ≠ .ok none := by
  obtain ⟨most, hmost⟩ := e.tree.exists_length_le (declared ++ s.asked)
  have he : e.IsOverTree p (declared ++ s.asked) most :=
    ⟨hb, hw, hdown, fun m imports hi q hq => List.mem_append_left _ (hplugins m imports hi q hq), hmost⟩
  have hd := Discovers.of_once he (List.subset_append_right _ _) hs ho
  exact ⟨_, fun bound hbound => hd.runToFixedPoint_ne_none he hbound⟩

end Runs

/-! ## What stops a session -/

/-- An operation on a session whose entry has been built: a walk of a path, a pass, or a run. -/
def Operation.goesOn : Operation → Bool
  | walk (.single ..) | walk (.path ..) | pass | run _ => true
  | _ => false

namespace Operation

variable {e : Engine (List Identity)} {p : SearchPath} {s : Session (List Identity)} {op : Operation}

/-- Such an operation stops at forbidden imports only. -/
theorem perform_forbidsOnly (he : e.Serves p) (hs : e.Backed s) (hop : op.goesOn = true) :
    ForbidsOnly (op.perform e) s := by
  cases op with
  | walk item => exact Engine.walk_forbidsOnly he hs (by rintro text rfl; cases hop)
  | pass => exact .bind (Engine.runPass_forbidsOnly he.builder) fun _ _ _ => .pure _
  | run bound => exact .bind (Engine.runToFixedPoint_forbidsOnly he.builder bound) fun _ _ _ => .pure _
  | _ => cases hop

/-- It is given nothing that may not be asked for. -/
theorem suits_of_goesOn (t : FileTree) (hop : op.goesOn = true) : op.Suits t := by
  cases op with
  | walk | pass | run => trivial
  | _ => cases hop

/-- It neither builds the entry nor asks for the main module by its name. -/
theorem sparesMain_of_goesOn (hop : op.goesOn = true) : op.isEntry = false ∧ op.asksForMain = false := by
  cases op with
  | walk | pass | run => exact ⟨rfl, rfl⟩
  | _ => cases hop

end Operation

/-- Plugin rules over the tree of the engine declare only what may be asked for. -/
theorem Engine.Serves.of_rules {e : Engine (List Identity)} {p : SearchPath} {rules : PluginRules}
    (hb : e.builder = .ofSources p e.tree) (ht : e.tree.IsWellFormed) (hp : e.policy.plugins = rules.plugins)
    (hr : rules.tree = e.tree) : e.Serves p := by
  refine ⟨hb, ht, ?_⟩
  rw [hp, ← hr]
  exact rules.suits_plugins (hr ▸ ht)

/-- What comes in after the entry comes in once. -/
theorem Once.after_addEntry {e : Engine (List Identity)} {p : SearchPath} (hb : e.builder = .ofSources p e.tree)
    (path : Path) {ops : List Operation} (hops : ∀ op ∈ ops, op.goesOn = true) :
    Once e (fun x kept => ∀ i, kept i → i ∈ x) (e.after (.addEntry path :: ops) (.fresh [])) := by
  have hbuilds : e.builder.BuildsOnce fun x kept => ∀ i, kept i → i ∈ x := hb ▸ Builder.buildsOnce_ofSources p e.tree
  have hfresh : Once e (fun x kept => ∀ i, kept i → i ∈ x) (.fresh []) := .fresh fun _ h => h.elim
  refine hfresh.after hbuilds (.of_nil rfl) (fun op hop => ?_) (Or.inr ⟨?_, Session.noMain_fresh []⟩)
  · rcases List.mem_cons.1 hop with rfl | hop
    · rfl
    · exact (Operation.sparesMain_of_goesOn (hops op hop)).2
  · have hnone : ops.countP Operation.isEntry = 0 := by
      refine List.countP_eq_zero.2 fun op hop => ?_
      simp [(Operation.sparesMain_of_goesOn (hops op hop)).1]
    rw [List.countP_cons, hnone]
    exact Nat.le_refl 1

/-- Nothing but a forbidden import stops a session over a tree. Over sources, under plugin rules and whatever the policy,
once the entry has been built, and after any walks of paths, passes and runs: each of these comes to a value or to a
forbidden import. A walk comes to its end. A run comes to a report or to a forbidden import, if its bound is large enough
and the relative imports of the tree lead down. A module whose source cannot be read or parsed is passed over, and all that
is kept is backed by the tree. -/
theorem only_forbidden_imports_stop {e : Engine (List Identity)} {p : SearchPath} {rules : PluginRules}
    (hb : e.builder = .ofSources p e.tree) (ht : e.tree.IsWellFormed) (hp : e.policy.plugins = rules.plugins)
    (hr : rules.tree = e.tree) (path : Path) {ops : List Operation} (hops : ∀ op ∈ ops, op.goesOn = true) :
    let s := e.after (.addEntry path :: ops) (.fresh [])
    (∀ op : Operation, op.goesOn = true → (op.perform e).ForbidsOnly s) ∧
      (∀ item, e.Walked [item] s (ends (e.walk item) s).1 (ends (e.walk item) s).2) ∧
      (e.tree.importsLeadDown = true → ∃ least, ∀ bound, least < bound →
        (∃ report, (ends (e.runToFixedPoint bound) s).1 = .ok (some report)) ∨
          ∃ what, (ends (e.runToFixedPoint bound) s).1 = .error (.forbidden what)) ∧
      (∀ r signalled source, ¬ s.Keeps r.identity → ¬ s.Keeps (r.toBuild.target e.tree).1.identity →
        e.policy.plugins.recursion r = .ok () → (r.toBuild.target e.tree).2 = some source → ¬ e.tree.Parses source →
        ∃ s', ends (e.recurse r signalled) s = (.ok none, s') ∧ s.Same s') ∧
      ∀ m ∈ s.cache.modules, m.IsBacked e.tree := by
  intro s
  have he : e.Serves p := .of_rules hb ht hp hr
  have hsuits : ∀ op ∈ Operation.addEntry path :: ops, op.Suits e.tree := by
    intro op hop
    rcases List.mem_cons.1 hop with rfl | hop
    · trivial
    · exact Operation.suits_of_goesOn e.tree (hops op hop)
  have hs : e.Backed s := (Engine.Backed.fresh e).after he hsuits
  have honce : Once e (fun x kept => ∀ i, kept i → i ∈ x) s := .after_addEntry hb path hops
  refine ⟨fun op hop => Operation.perform_forbidsOnly he hs hop, Engine.walked_walk he hs, fun hdown => ?_, ?_, hs.kept⟩
  · obtain ⟨least, hleast⟩ := Engine.exists_least hb ht.isAbsolute hdown (hp ▸ rules.declaresFrom) hs.remembers honce
    refine ⟨least, fun bound hbound => ?_⟩
    have hforbids := Engine.runToFixedPoint_forbidsOnly (s := s) hb bound
    have hne := hleast bound hbound
    rcases h : ends (e.runToFixedPoint bound) s with ⟨err | _ | report, s'⟩
    · obtain ⟨what, rfl⟩ := hforbids err s' h
      exact Or.inr ⟨what, rfl⟩
    · rw [h] at hne
      exact absurd rfl hne
    · exact Or.inl ⟨report, rfl⟩
  · intro r signalled source hnew hfree hallowed hsource hread
    exact Engine.ends_recurse_of_not_parses he hs signalled hnew hfree hallowed hsource hread

/-! ### Sources that cannot be read, and old code -/

/-- A program that imports a source that is no text, one that cannot be opened, and old code. -/
def FileTree.damaged : FileTree :=
  (empty ⟨"/w"⟩).addAll [
    (["w", "main.py"], .text "import blob\nimport locked\nimport legacy\n"),
    (["w", "blob.py"], .unreadable .notText),
    (["w", "locked.py"], .unreadable (.stated "Permission denied (os error 13)")),
    (["w", "legacy.py"], .text "")]

/-- A pass over this program passes over the first two and stops at the old code, as does a run. -/
theorem only_forbidden_imports_stop_damaged :
    let rules : PluginRules := { PluginRules.guarding with tree := .damaged }
    let e : Engine _ := ⟨.followingAll rules.plugins, .damaged, .ofSources .inWork .damaged⟩
    let s := e.after [.addEntry ⟨"main.py"⟩] (.fresh [])
    let locked : RecursionRequest := ⟨⟨"locked"⟩, ⟨⟨"/w/locked.py"⟩⟩, .source, none, none, ""⟩
    e.tree.IsWellFormed ∧ e.tree.importsLeadDown = true ∧
      (∃ what s', ends (Operation.pass.perform e) s = (.error (.forbidden what), s')) ∧
      (∃ least, ∀ bound, least < bound → (∃ report, (ends (e.runToFixedPoint bound) s).1 = .ok (some report)) ∨
        ∃ what, (ends (e.runToFixedPoint bound) s).1 = .error (.forbidden what)) ∧
      ∃ s', ends (e.recurse locked true) s = (.ok none, s') ∧ s.Same s' := by
  intro rules e s locked
  have ht : e.tree.IsWellFormed := (FileTree.isWellFormed_empty (by decide) (by decide)).addAll (by decide)
  have hdown : e.tree.importsLeadDown = true := by decide +kernel
  obtain ⟨hforbids, _, hrun, hpassed, _⟩ :=
    only_forbidden_imports_stop (e := e) rfl ht rfl rfl ⟨"main.py"⟩ (List.forall_mem_nil _)
  refine ⟨ht, hdown, ?_, hrun hdown, ?_⟩
  · have hfails : (ends (Operation.pass.perform e) s).1.isOk = false := by decide +kernel
    rcases h : ends (Operation.pass.perform e) s with ⟨err | _, s'⟩
    · obtain ⟨what, rfl⟩ := hforbids .pass rfl err s' h
      exact ⟨what, s', rfl⟩
    · rw [h] at hfails
      cases hfails
  · have hallowed : (e.policy.plugins.recursion locked).isOk = true := by decide +kernel
    have hread : (e.tree.readText ⟨"/w/locked.py"⟩).isOk = false := by decide +kernel
    refine hpassed locked true ⟨"/w/locked.py"⟩ (by decide +kernel) (by decide +kernel) ?_ (by decide +kernel) ?_
    · cases h : e.policy.plugins.recursion locked with
      | error what =>
        rw [h] at hallowed
        cases hallowed
      | ok _ => rfl
    · rintro ⟨text, _, htext, _⟩
      rw [htext] at hread
      cases hread

/-! ### A run that does not return -/

/-- Rules that say nothing. -/
def PluginRules.silent (t : FileTree) : PluginRules :=
  { decisions := [], implicit := [], forbid := [], bytecode := [], search := {}, tree := t }

/-- Where a package imports its own init entry, a run does not return, although its entry can be built and nothing is
forbidden. -/
theorem run_never_returns_selfImport :
    let rules := PluginRules.silent .selfImport
    let e : Engine _ := ⟨.followingAll rules.plugins, .selfImport, .ofSources .inWork .selfImport⟩
    e.tree.IsWellFormed ∧ (ends (e.addEntry ⟨"main.py"⟩) (.fresh [])).1.isOk = true ∧
      ∀ bound, (ends (e.runToFixedPoint bound) (e.after [.addEntry ⟨"main.py"⟩] (.fresh []))).1 = .ok none := by
  intro rules e
  have he : e = SelfImport.engine := rfl
  rw [he]
  refine ⟨?_, by decide +kernel, fun bound => ?_⟩
  · have hempty : (FileTree.empty ⟨"/w"⟩).IsWellFormed := FileTree.isWellFormed_empty (by decide) (by decide)
    have hmain : ∀ name ∈ ["w", "main.py"], Path.IsStep name ∧ name ≠ ".." := by decide
    have hpackage : ∀ name ∈ ["w", "pkg", "__init__.py"], Path.IsStep name ∧ name ≠ ".." := by decide
    exact (hempty.add _ hmain).add _ hpackage
  · have hafter : SelfImport.engine.after [.addEntry ⟨"main.py"⟩] (.fresh []) =
        (ends (SelfImport.engine.addEntry ⟨"main.py"⟩) (.fresh [])).2 := SelfImport.engine.next_addEntry _ _
    rw [hafter]
    exact SelfImport.nesting_addEntry.runToFixedPoint_eq_none bound

end ImportClosure
