import ImportClosure.Proofs.Origins
import ImportClosure.Proofs.Roots
import ImportClosure.Proofs.Steady
import ImportClosure.Proofs.WalkGraph

/-!
# What walks ask a builder for

A session notes every build that it asks for (`Session.AskedSince`); a request for an included module leads to one build at
most (`Engine.notes_recurse`). Over sources all builds that a call of the walker asks for are requests as walks make them
(`Operation.isWalked_of_askedSince`), if the paths that it begins with may be walked (`FileTree.Walkable`): the way down a
package is written as plainly as the path to the package.
-/

namespace ImportClosure

variable {σ : Type}

open Step

/-! ## Builds that are noted -/

/-- The build that an event tells of. -/
def Event.build? : Event → Option BuildRequest
  | recursion r => some r.toBuild
  | _ => none

namespace Session

variable {s s₁ s₂ s' : Session σ} {builds builds' : List BuildRequest}

/-- The builds that were asked for between two sessions. -/
def AskedSince (s s' : Session σ) (r : BuildRequest) : Prop :=
  ∃ new, s'.events = new ++ s.events ∧ r ∈ new.filterMap Event.build?

theorem AskedSince.of_suffix_right {r : BuildRequest} (h : s.AskedSince s₁ r) (hs : s₁.events <:+ s₂.events) :
    s.AskedSince s₂ r := by
  obtain ⟨new, hnew, hr⟩ := h
  obtain ⟨more, hmore⟩ := hs
  refine ⟨more ++ new, by rw [← hmore, hnew, List.append_assoc], ?_⟩
  rw [List.filterMap_append]
  exact List.mem_append_right _ hr

theorem AskedSince.of_suffix_left {r : BuildRequest} (h : s₁.AskedSince s₂ r) (hs : s.events <:+ s₁.events) :
    s.AskedSince s₂ r := by
  obtain ⟨new, hnew, hr⟩ := h
  obtain ⟨more, hmore⟩ := hs
  refine ⟨new ++ more, by rw [hnew, ← hmore, List.append_assoc], ?_⟩
  rw [List.filterMap_append]
  exact List.mem_append_left _ hr

/-- From one session to a later one these builds were asked for, the last one first. -/
def Notes (s s' : Session σ) (builds : List BuildRequest) : Prop :=
  ∃ new, s'.events = new ++ s.events ∧ new.filterMap Event.build? = builds

/-- A session asks for nothing until something happens. -/
theorem Notes.refl (s : Session σ) : s.Notes s [] :=
  ⟨[], rfl, rfl⟩

/-- What is asked for later comes in front. -/
theorem Notes.trans (h : s.Notes s₁ builds) (h' : s₁.Notes s' builds') : s.Notes s' (builds' ++ builds) := by
  obtain ⟨new, hnew, rfl⟩ := h
  obtain ⟨new', hnew', rfl⟩ := h'
  exact ⟨new' ++ new, by rw [hnew', hnew, List.append_assoc], List.filterMap_append⟩

/-- Events are only added. -/
theorem Notes.suffix (h : s.Notes s' builds) : s.events <:+ s'.events := by
  obtain ⟨new, hnew, _⟩ := h
  exact ⟨new, hnew.symm⟩

/-- The builds that were asked for are those that are noted. -/
theorem Notes.askedSince_iff (h : s.Notes s' builds) {r : BuildRequest} : s.AskedSince s' r ↔ r ∈ builds := by
  obtain ⟨new, hnew, rfl⟩ := h
  constructor
  · rintro ⟨new', hnew', hr⟩
    rwa [List.append_cancel_right (hnew.symm.trans hnew')]
  · exact fun hr => ⟨new, hnew, hr⟩

end Session

namespace Engine

variable {e : Engine σ} {s : Session σ}

/-- A decision asks for no build. -/
theorem notes_decide (q : Query) (s : Session σ) : s.Notes (ends (e.decide q) s).2 [] := by
  unfold Engine.decide
  rw [ends_bind_ok (ends_get s)]
  cases s.decisions.lookup q.key with
  | some d => exact .refl s
  | none =>
    cases e.policy.reachesPlugins q
    · exact .refl s
    · exact ⟨[.encounter q], rfl, rfl⟩

/-- Sources that are passed over are told of by events of their own. -/
theorem notes_build (r : BuildRequest) (s : Session σ) : s.Notes (ends (e.build r) s).2 [] := by
  have hnotes : ∀ (notes : List BuildNote) (s : Session σ),
      s.Notes (notes.foldl (fun s what => s.note (.passedOver what)) s) [] := by
    intro notes
    induction notes with
    | nil => exact fun s => .refl s
    | cons what notes ih =>
      intro s
      have hfirst : s.Notes (s.note (.passedOver what)) [] := ⟨[.passedOver what], rfl, rfl⟩
      exact hfirst.trans (ih _)
  have hbuild := hnotes (e.builder.build r s.builder).1.notes { s with builder := (e.builder.build r s.builder).2 }
  unfold Engine.build
  rw [ends_bind_ok (ends_get s), ends_bind_ok (ends_set _ _)]
  rcases (e.builder.build r s.builder).1.result with err | _ | o <;> exact hbuild

/-- A request for an included module asks for the build of the module, unless the module is kept or the plugins refuse it. -/
theorem notes_recurse (r : RecursionRequest) (signalled : Bool) (s : Session σ) :
    s.Notes (ends (e.recurse r signalled) s).2
      (if s.cache.find? r.identity = none ∧ e.policy.plugins.recursion r = .ok () then [r.toBuild] else []) := by
  unfold Engine.recurse
  rw [ends_bind_ok (ends_get s), show s.cache.find? r.identity = s.cache.get? r.name r.file from rfl]
  cases hc : s.cache.get? r.name r.file with
  | some kept => exact .refl s
  | none =>
    cases hp : e.policy.plugins.recursion r with
    | error what => exact .refl s
    | ok _ =>
      have hfirst : s.Notes (s.note (.recursion r)) [r.toBuild] := ⟨[.recursion r], rfl, rfl⟩
      have hbuild := hfirst.trans (e.notes_build r.toBuild (s.note (.recursion r)))
      rw [if_pos ⟨rfl, rfl⟩]
      simp only [ends_bind_ok (ends_update _ s)]
      rcases hb : ends (e.build r.toBuild) (s.note (.recursion r)) with ⟨err | _ | o, s₁⟩ <;> rw [hb] at hbuild
      · rw [ends_bind_error hb]
        exact hbuild
      · rw [ends_bind_ok hb]
        exact hbuild
      · rw [ends_bind_ok hb]
        simp only [ends_bind_ok (ends_accept ..)]
        exact hbuild

/-- So does a request for a module by its path. -/
theorem notes_fetch (r : RecursionRequest) (s : Session σ) :
    ∃ builds, s.Notes (ends (e.fetch r) s).2 builds ∧ ∀ b ∈ builds, b = r.toBuild := by
  have hrecurse := e.notes_recurse r false s
  have hbuilds : ∀ b ∈ (if s.cache.find? r.identity = none ∧ e.policy.plugins.recursion r = .ok () then [r.toBuild] else []),
      b = r.toBuild := by
    intro b hb
    split at hb
    · exact List.mem_singleton.1 hb
    · cases hb
  refine ⟨_, ?_, hbuilds⟩
  unfold fetch
  rcases h : ends (e.recurse r false) s with ⟨err | _ | m, s₁⟩ <;> rw [h] at hrecurse
  · rwa [ends_bind_error h]
  · rwa [ends_bind_ok h]
  · rwa [ends_bind_ok h]

/-- What is obtained is kept. -/
theorem find?_of_fetch {r : RecursionRequest} {m : ModuleRecord} {s' : Session σ}
    (h : ends (e.fetch r) s = (.ok (some m), s')) : s'.cache.find? m.identity = some m := by
  have hleads : Leads e (fun _ => True) (e.fetch r) s _ := fetch_leads trivial
  obtain ⟨_, _, hc, hcache⟩ := hleads.2 _ _ h
  rw [hcache]
  exact hc.find?_eq

end Engine

/-! ## Paths that may be walked -/

namespace FileTree

variable {t : FileTree} {dir path : Path} {package : Option ModuleName} {names : List String} {name : String}

/-- A path that may be walked: it is written with one slash at the root. What ends with a slash is a directory, and what is
named like an init entry is a file. -/
structure Walkable (t : FileTree) (path : Path) : Prop where
  rootText : path.rootText = "/"
  isDir : Text.endsWith (path.absolute t.workDir).text "/" = true → t.isDir (path.absolute t.workDir) = true
  isFile : (path.absolute t.workDir).fileName = some initEntry → t.isFile (path.absolute t.workDir) = true

/-- What stands in a plainly written directory may be walked, the init entry apart. -/
theorem walkable_child (ht : t.IsWellFormed) (hp : dir.IsPlain) (h : dir.isAbsolute = true) (hl : t.list dir = .ok names)
    (hname : name ∈ names) (hne : name ≠ initEntry) : t.Walkable (dir.child name) := by
  obtain ⟨hstep, hup⟩ := (ht.names_of_list hl).2 name hname
  have hplain := hp.child h hstep
  have hself : (dir.child name).absolute t.workDir = dir.child name :=
    (hplain.isCanonical (w := t.workDir) (Path.isAbsolute_child h name)).2
  refine ⟨hplain.rootText_eq, ?_, ?_⟩ <;> rw [hself]
  · rw [Path.endsWith_child h hstep]
    exact nofun
  · rw [Path.fileName_child h hstep hup]
    exact fun heq => absurd (Option.some.inj heq) hne

end FileTree

namespace BuildRequest

variable {t : FileTree} {r : BuildRequest}

/-- A path that may be walked is asked for as walks ask. -/
theorem isWalked_toBuild (ht : t.IsWellFormed) {path : Path} {package : Option ModuleName} {q : Query}
    {r : RecursionRequest} (hpath : t.Walkable path) (hq : t.query? path package = some q) (hr : r.AsksFor q) :
    r.toBuild.IsWalked t := by
  obtain ⟨habs, hplain⟩ := ht.file_of_query? hpath.rootText hq
  obtain ⟨found, hfound, rfl⟩ := Option.map_eq_some_iff.1 hq
  obtain ⟨_, hfile, hkind⟩ := hr
  have hbuild : r.toBuild = ⟨r.name, .ofPath t.workDir path, found.2, false, true⟩ := by
    rw [RecursionRequest.toBuild, hfile, hkind]
  rw [hbuild]
  exact {
    isAbsolute := habs
    isPlain := hplain
    isDir := hpath.isDir
    isFile := fun hi => hpath.isFile (beq_iff_eq.1 hi)
    kind_eq := by rw [hfound, Option.map_some]
    hidden := rfl }

/-- What is built for such a request is in a plainly written file. -/
theorem IsWalked.isPlain_target (hr : r.IsWalked t) :
    (r.target t).1.file.path.isAbsolute = true ∧ (r.target t).1.file.path.IsPlain := by
  rcases r.target_spec t with ⟨hm, _⟩ | ⟨_, _, hfile | ⟨_, hfile⟩⟩
  · rw [hm]
    exact ⟨hr.isAbsolute, hr.isPlain⟩
  · rw [hfile]
    exact ⟨hr.isAbsolute, hr.isPlain⟩
  · have habs := Path.isAbsolute_child hr.isAbsolute initEntry
    have hplain := hr.isPlain.child hr.isAbsolute Path.isStep_initEntry
    rw [hfile, ModuleFile.ofPath_of_isCanonical (hplain.isCanonical habs)]
    exact ⟨habs, hplain⟩

end BuildRequest

/-- An item that begins with paths that may be walked. -/
def WalkItem.Walkable (t : FileTree) : WalkItem → Prop
  | .single p _ => t.Walkable p
  | .path dir package =>
    ∀ children, t.opened dir package = .ok children → ∀ p n, .single p n ∈ children → t.Walkable p
  | .pattern text => ∀ children, t.matched text = .ok children → ∀ p n, .single p n ∈ children → t.Walkable p

/-! ## Walks over sources -/

/-- All modules that a session keeps are in plainly written files, and since an earlier session it has asked only for what
walks ask for. -/
structure Session.WalksSince (t : FileTree) (s₀ s : Session σ) : Prop where
  kept : ∀ m ∈ s.cache.modules, m.file.path.isAbsolute = true ∧ m.file.path.IsPlain
  asked : ∃ builds, s₀.Notes s builds ∧ ∀ r ∈ builds, r.IsWalked t

namespace Session.WalksSince

variable {t : FileTree} {s₀ s s' : Session σ} {builds : List BuildRequest}

/-- It goes on like that if what comes to be kept is plainly written, and what is asked for is what walks ask for. -/
theorem next (h : s₀.WalksSince t s)
    (hkept : ∀ m ∈ s'.cache.modules, m ∈ s.cache.modules ∨ m.file.path.isAbsolute = true ∧ m.file.path.IsPlain)
    (hnotes : s.Notes s' builds) (hbuilds : ∀ r ∈ builds, r.IsWalked t) : s₀.WalksSince t s' where
  kept m hm := (hkept m hm).elim (h.kept m) id
  asked := by
    obtain ⟨before, hbefore, hold⟩ := h.asked
    refine ⟨builds ++ before, hbefore.trans hnotes, fun r hr => ?_⟩
    exact (List.mem_append.1 hr).elim (hbuilds r) (hold r)

/-- It goes on like that if nothing comes to be kept and nothing is asked for. -/
theorem of_notes (h : s₀.WalksSince t s) (hcache : s'.cache = s.cache) (hnotes : s.Notes s' []) : s₀.WalksSince t s' :=
  h.next (fun _ hm => Or.inl (hcache ▸ hm)) hnotes (List.forall_mem_nil _)

end Session.WalksSince

namespace Engine

variable {e : Engine (List Identity)} {p : SearchPath} {s₀ s : Session (List Identity)}

section Steps

variable (hs : s₀.WalksSince e.tree s)

include hs

/-- To note what a walk does asks for nothing. -/
theorem trace_walksSince (event : Event) (hevent : event.build? = none) :
    Keeps (s₀.WalksSince e.tree) (e.trace event) s fun _ s₁ => s₁.cache = s.cache := by
  have hnotes : s.Notes (s.note event) [] := by
    refine ⟨[event], rfl, ?_⟩
    rw [List.filterMap_cons_none hevent, List.filterMap_nil]
  unfold trace
  split
  · exact ⟨hs.of_notes rfl hnotes, fun _ _ h => congrArg (fun s => s.cache) (Prod.mk.inj h).2.symm⟩
  · exact .pure hs rfl

/-- To report a problem asks for nothing. -/
theorem diagnose_walksSince (d : Diagnostic) :
    Keeps (s₀.WalksSince e.tree) (update fun s => s.diagnose d) s fun _ _ => True :=
  .update (hs.of_notes rfl ⟨[.diagnosed d], rfl, rfl⟩)

/-- To make a module a root asks for nothing. -/
theorem addRoot_walksSince (m : ModuleRecord) :
    Keeps (s₀.WalksSince e.tree) (update fun s => s.addRoot m) s fun _ _ => True :=
  .update (hs.of_notes rfl (.refl s))

/-- A path that could not be included leaves nothing to walk. -/
theorem includeFailed_walksSince (path : Path) :
    Keeps (s₀.WalksSince e.tree) (includeFailed path) s fun children _ => children = [] :=
  .bind (diagnose_walksSince hs _) fun _ _ hs₁ _ => .pure hs₁ rfl

/-- To report an extension module asks for nothing. -/
theorem reportExtension_walksSince (name : ModuleName) (kind : ModuleKind) :
    Keeps (s₀.WalksSince e.tree) (e.reportExtension name kind) s fun _ _ => True := by
  unfold reportExtension
  split
  · exact diagnose_walksSince hs _
  · exact .pure hs trivial

/-- To decide asks for nothing. -/
theorem decide_walksSince (q : Query) : Keeps (s₀.WalksSince e.tree) (e.decide q) s fun _ _ => True := by
  refine ⟨hs.of_notes ?_ (e.notes_decide q s), fun _ _ _ => trivial⟩
  rcases e.ends_decide q s with ⟨_, _, hq⟩ | ⟨_, _, hq⟩ <;> rw [hq]

/-- The names in a directory are looked up without asking for anything. -/
theorem namesIn_walksSince (dir : Path) : Keeps (s₀.WalksSince e.tree) (e.namesIn dir) s fun _ _ => True := by
  unfold namesIn
  split
  · exact .pure hs trivial
  · exact .throw _ hs

/-- To open a package asks for nothing. -/
theorem openPackage_walksSince (m : ModuleRecord) :
    Keeps (s₀.WalksSince e.tree) (openPackage m) s fun _ _ => True := by
  unfold openPackage
  split
  · exact .pure hs trivial
  · refine .bind (addRoot_walksSince hs m) fun _ s₁ hs₁ _ => ?_
    split
    · exact .pure hs₁ trivial
    · exact .throw _ hs₁

/-- To register a module that is kept asks for nothing. -/
theorem registerIncluded_walksSince {m : ModuleRecord} (hk : s.cache.find? m.identity = some m) :
    Keeps (s₀.WalksSince e.tree) (e.registerIncluded m) s fun children _ => e.Registered m children := by
  refine .of_ends ?_ fun _ _ => registered_of_registerIncluded
  unfold registerIncluded
  refine .bind (trace_walksSince hs _ rfl) fun _ s₁ hs₁ hcache => ?_
  refine .bind (.update (by rwa [keep_eq (by rwa [hcache])])) fun _ s₂ hs₂ _ => ?_
  dsimp only
  split
  · split
    · exact .throw_bind _ _ hs₂
    · refine .bind (openPackage_walksSince hs₂ m) fun dir s₃ hs₃ _ => ?_
      refine .bind (trace_walksSince hs₃ _ rfl) fun _ s₄ hs₄ _ => ?_
      exact .bind (namesIn_walksSince hs₄ dir) fun _ _ hs₅ _ => .pure hs₅ trivial
  · split
    · exact .bind (addRoot_walksSince hs₂ m) fun _ _ hs₃ _ => .pure hs₃ trivial
    · exact .pure hs₂ trivial

/-- What is opened stands for itself, and asks for nothing yet. -/
theorem walkPath_walksSince (path : Path) (package : Option ModuleName) :
    Keeps (s₀.WalksSince e.tree) (e.walkPath path package) s fun children _ =>
      e.tree.opened path package = .ok children := by
  have hleads : Leads e (fun _ => True) (e.walkPath path package) s _ := walkPath_leads path package trivial
  refine .of_ends ?_ hleads.2
  unfold walkPath
  refine .bind (trace_walksSince hs _ rfl) fun _ s₁ hs₁ _ => ?_
  split
  · exact .pure hs₁ trivial
  · split
    · exact (includeFailed_walksSince hs₁ path).weaken (fun _ h => h) fun _ _ _ => trivial
    · exact .bind (namesIn_walksSince hs₁ path) fun _ _ hs₂ _ => .pure hs₂ trivial

/-- What matches a pattern asks for nothing yet. -/
theorem walkPattern_walksSince (text : String) :
    Keeps (s₀.WalksSince e.tree) (e.walkPattern text) s fun children _ => e.tree.matched text = .ok children := by
  have hleads : Leads e (fun _ => True) (e.walkPattern text) s _ := walkPattern_leads text trivial
  refine .of_ends ?_ hleads.2
  unfold walkPattern
  refine .bind (trace_walksSince hs _ rfl) fun _ s₁ hs₁ _ => ?_
  dsimp only
  split
  · exact .throw_bind _ _ hs₁
  cases FilePattern.read text with
  | error fault => exact .throw _ hs₁
  | ok pattern =>
    dsimp only
    split
    · exact .bind (diagnose_walksSince hs₁ _) fun _ _ hs₂ _ => .pure hs₂ trivial
    · exact .pure hs₁ trivial

end Steps

variable (hb : e.builder = .ofSources p e.tree) (ht : e.tree.IsWellFormed)

include hb

/-- A module that is asked for as walks ask comes to be kept in a plainly written file. -/
theorem fetch_walksSince (hs : s₀.WalksSince e.tree s) {r : RecursionRequest} (hr : r.toBuild.IsWalked e.tree) :
    Keeps (s₀.WalksSince e.tree) (e.fetch r) s fun found s' =>
      ∀ m, found = some m → s'.cache.find? m.identity = some m := by
  obtain ⟨builds, hnotes, hbuilds⟩ := e.notes_fetch r s
  refine ⟨hs.next (fun m hm => ?_) hnotes fun b hmem => hbuilds b hmem ▸ hr, fun found s' h m hm => ?_⟩
  · rw [cache_of_fetch] at hm
    refine (mem_of_recurse hm).imp_right fun ⟨_, x, o, ho, hrecord⟩ => ?_
    rw [hb] at ho
    rw [← hrecord, (Builder.given_of_ofSources ho).1]
    exact hr.isPlain_target
  · subst hm
    exact find?_of_fetch h

include ht

/-- Walking a path that may be walked leaves paths that may be. -/
theorem walkSingle_walksSince (hs : s₀.WalksSince e.tree s) {path : Path} (hpath : e.tree.Walkable path)
    (package : Option ModuleName) :
    Keeps (s₀.WalksSince e.tree) (e.walkSingle path package) s fun children _ =>
      ∀ child ∈ children, child.Walkable e.tree := by
  have hnone : ∀ child ∈ ([] : List WalkItem), child.Walkable e.tree := List.forall_mem_nil _
  unfold walkSingle
  refine .bind (trace_walksSince hs _ rfl) fun _ s₁ hs₁ _ => ?_
  dsimp only
  split
  · exact .pure hs₁ hnone
  next bare kind hat =>
    have hq : e.tree.query? path package = some ⟨.ofPath e.tree.workDir path, .inPackage bare package, kind, true⟩ := by
      rw [FileTree.query?, hat, Option.map_some]
    refine .bind (reportExtension_walksSince hs₁ _ _) fun _ s₂ hs₂ _ => ?_
    refine .bind (decide_walksSince hs₂ _) fun d s₃ hs₃ _ => ?_
    cases d with
    | included reason =>
      have hr := BuildRequest.isWalked_toBuild ht hpath hq
        (r := ⟨.inPackage bare package, .ofPath e.tree.workDir path, kind, none, none, reason.text⟩) ⟨rfl, rfl, rfl⟩
      refine .bind (fetch_walksSince hb hs₃ hr) fun found s₄ hs₄ hfound => ?_
      cases found with
      | none =>
        refine (includeFailed_walksSince hs₄ _).weaken (fun _ h => h) fun children _ hchildren => ?_
        rw [hchildren]
        exact hnone
      | some m =>
        have hk := hfound m rfl
        refine (registerIncluded_walksSince hs₄ hk).weaken (fun _ h => h) fun children _ hm child hmem => ?_
        rcases hm with ⟨_, rfl⟩ | ⟨_, names, hl, rfl⟩
        · cases hmem
        · obtain ⟨name, hname, rfl⟩ := List.mem_map.1 hmem
          obtain ⟨hname, hmember⟩ := List.mem_filter.1 hname
          obtain ⟨habs, hplain⟩ := hs₄.kept m (List.mem_of_find?_eq_some hk)
          refine FileTree.walkable_child ht (ModuleFile.isPlain_identity hplain habs)
            (ModuleFile.isAbsolute_identity habs) hl hname ?_
          rintro rfl
          simp [isMember] at hmember
    | excluded | undecided => exact .bind (diagnose_walksSince hs₃ _) fun _ _ hs₄ _ => .pure hs₄ hnone

/-- Walking an item that begins with paths that may be walked leaves paths that may be. -/
theorem expand_walksSince (hs : s₀.WalksSince e.tree s) {item : WalkItem} (hitem : item.Walkable e.tree) :
    Keeps (s₀.WalksSince e.tree) (e.expand item) s fun children _ => ∀ child ∈ children, child.Walkable e.tree := by
  have hsingles : ∀ children : List WalkItem, (∀ child ∈ children, child.isSingle = true) →
      (∀ p n, .single p n ∈ children → e.tree.Walkable p) → ∀ child ∈ children, child.Walkable e.tree := by
    intro children hsingle h child hmem
    cases child with
    | single p n => exact h p n hmem
    | path | pattern => cases hsingle _ hmem
  cases item with
  | single path package => exact walkSingle_walksSince hb ht hs hitem package
  | path path package =>
    refine (walkPath_walksSince hs path package).weaken (fun _ h => h) fun children _ h => ?_
    exact hsingles children (FileTree.isSingle_of_opened h) (hitem children h)
  | pattern text =>
    refine (walkPattern_walksSince hs text).weaken (fun _ h => h) fun children _ h => ?_
    exact hsingles children (FileTree.isSingle_of_matched h) (hitem children h)

/-- Walking a stack of such items asks only for what walks ask for. -/
theorem walkStack_walksSince (bound : Nat) {items : List WalkItem} (hitems : ∀ item ∈ items, item.Walkable e.tree)
    (hs : s₀.WalksSince e.tree s) : Keeps (s₀.WalksSince e.tree) (e.walkStack bound items) s fun _ _ => True := by
  induction bound generalizing items s with
  | zero =>
    cases items with
    | nil => exact .pure hs trivial
    | cons item rest => exact .throw _ hs
  | succ bound ih =>
    cases items with
    | nil => exact .pure hs trivial
    | cons item rest =>
      refine .bind (expand_walksSince hb ht hs (hitems item List.mem_cons_self)) fun children s₁ hs₁ hchildren => ?_
      refine ih (fun child hmem => ?_) hs₁
      rcases List.mem_append.1 hmem with hmem | hmem
      · exact hchildren child hmem
      · exact hitems child (List.mem_cons_of_mem item hmem)

/-- Walking such an item asks only for what walks ask for. -/
theorem walk_walksSince {item : WalkItem} (hitem : item.Walkable e.tree) (hs : s₀.WalksSince e.tree s) :
    Keeps (s₀.WalksSince e.tree) (e.walk item) s fun _ _ => True :=
  .bind (expand_walksSince hb ht hs hitem) fun _ _ hs₁ hchildren => walkStack_walksSince hb ht _ hchildren hs₁

end Engine

section Operations

variable {e : Engine (List Identity)} {p : SearchPath} {s₀ s s' : Session (List Identity)} {op : Operation}

/-- A call of the walker asks only for what walks ask for. -/
theorem Operation.perform_walksSince (hb : e.builder = .ofSources p e.tree) (ht : e.tree.IsWellFormed)
    (hop : op.isWalk = true) (hitems : ∀ item ∈ op.items, item.Walkable e.tree) (hs : s₀.WalksSince e.tree s) :
    Keeps (s₀.WalksSince e.tree) (op.perform e) s fun _ _ => True := by
  cases op with
  | walk item => exact Engine.walk_walksSince hb ht (hitems item List.mem_cons_self) hs
  | seed includes base =>
    refine .bind (.forM (fun path hpath s hs => ?_) hs) fun _ s₁ hs₁ _ => .forM (fun text htext s hs => ?_) hs₁
    · exact Engine.walk_walksSince hb ht (hitems _ (List.mem_append_left _ (List.mem_map_of_mem hpath))) hs
    · exact Engine.walk_walksSince hb ht (hitems _ (List.mem_append_right _ (List.mem_map_of_mem htext))) hs
  | _ => cases hop

/-- Over sources, if all that is kept is in plainly written files, a call of the walker that begins with paths that may be
walked asks only for what walks ask for. -/
theorem Operation.isWalked_of_askedSince (hb : e.builder = .ofSources p e.tree) (ht : e.tree.IsWellFormed)
    (hop : op.isWalk = true) (hitems : ∀ item ∈ op.items, item.Walkable e.tree)
    (hkept : ∀ m ∈ s.cache.modules, m.file.path.isAbsolute = true ∧ m.file.path.IsPlain)
    {result : Except Error Unit} (h : ends (op.perform e) s = (result, s')) {r : BuildRequest} (hr : s.AskedSince s' r) :
    r.IsWalked e.tree := by
  have hs : s.WalksSince e.tree s := ⟨hkept, [], .refl s, List.forall_mem_nil _⟩
  have hafter := (op.perform_walksSince hb ht hop hitems hs).1
  rw [h] at hafter
  obtain ⟨builds, hnotes, hbuilds⟩ := hafter.asked
  exact hbuilds r (hnotes.askedSince_iff.1 hr)

end Operations

end ImportClosure
