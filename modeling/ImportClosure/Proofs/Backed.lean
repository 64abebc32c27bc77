import ImportClosure.Proofs.Confined
import ImportClosure.Proofs.Housed
import ImportClosure.Proofs.WalkGraph

/-!
# Sessions over a tree

In a session over sources that asks only for what may be asked for, everything that is kept is backed by the tree, and the
builder remembers nothing that is not kept (`Engine.Backed`). What an item of a walk leaves weighs less than the item
(`FileTree.Lighter`), since a package that is kept has a directory of its own.
-/

namespace ImportClosure

open Step

/-! ## What is asked for -/

/-- An action that asks only for what may be asked for. The entry always may. -/
def Action.Suits (t : FileTree) : Action → Prop
  | recursed r _ | fetched r => t.Suits r.file r.kind
  | _ => True

/-- An operation that asks only for what may be asked for. -/
def Operation.Suits (t : FileTree) : Operation → Prop
  | consider _ edges => ∀ edge ∈ edges, edge.Suits t
  | recurse r _ => t.Suits r.file r.kind
  | _ => True

namespace FileTree

/-- There is no more below a name than below the place where it stands. -/
theorem below_concat_le (t : FileTree) {place : List Path.Component} {name : String} (hplace : place ≠ [])
    (hn : Path.IsStep name ∧ name ≠ "..") : t.below (place ++ [.name name]) ≤ t.below place := by
  unfold below
  rw [List.tail_append_of_ne_nil hplace, List.map_append, List.map_singleton]
  split
  next next hnext =>
    obtain ⟨above, habove, hlast⟩ := foldlM_follow_concat.1 hnext
    obtain rfl : next = above ++ [name] := (follow_eq_ok hlast).2.2 hn.1.2 hn.2
    rw [habove]
    refine List.countP_mono_left fun entry _ h => ?_
    obtain ⟨hfront, _⟩ := Bool.and_eq_true_iff.1 h
    obtain ⟨rest, rfl⟩ := List.isPrefixOf_iff_prefix.1 hfront
    simp
  next => exact Nat.zero_le _

end FileTree

namespace Engine

variable {e : Engine (List Identity)} {p : SearchPath} {s s' : Session (List Identity)} {r : BuildRequest}

/-- An engine over the sources of its tree whose plugins declare only what may be asked for. -/
structure Serves (e : Engine (List Identity)) (p : SearchPath) : Prop where
  builder : e.builder = .ofSources p e.tree
  tree : e.tree.IsWellFormed
  plugins : e.policy.plugins.Suits e.tree

/-- What holds of a session that has only asked for what may be asked for. -/
structure Backed (e : Engine (List Identity)) (s : Session (List Identity)) : Prop where
  remembers : e.Remembers s
  known : ∀ i ∈ s.builder, s.Keeps i
  kept : ∀ m ∈ s.cache.modules, m.IsBacked e.tree
  pending : ∀ m ∈ s.pending, ∀ edge ∈ m.uses, edge.Suits e.tree

/-- A session in which nothing has happened is backed. -/
theorem Backed.fresh (e : Engine (List Identity)) : e.Backed (.fresh []) where
  remembers := .of_nil rfl
  known _ hi := nomatch hi
  kept _ hm := nomatch hm
  pending _ hm := nomatch hm

/-! ## Actions -/

/-- The entry may be asked for as what is at its path. -/
theorem suits_entryBuild (ht : e.tree.IsWellFormed) (path : Path) :
    e.tree.Suits (e.entryBuild path).file (e.entryBuild path).kind := by
  refine FileTree.suits_ofPath ht fun hp => ?_
  show ((e.tree.moduleAt? (ModuleFile.ofPath e.tree.workDir path).path).map Prod.snd).getD .source ≠ .extension
  cases hat : e.tree.moduleAt? (ModuleFile.ofPath e.tree.workDir path).path with
  | none => exact nofun
  | some found =>
    obtain ⟨bare, kind⟩ := found
    exact FileTree.kind_ne_of_moduleAt? hat (hp.imp_right fun hi => by simpa [ModuleFile.isInitEntry] using hi)

/-- The build that an action leads to is for what may be asked for. -/
theorem Serves.of_build? (he : e.Serves p) {a : Action} (ha : a.Suits e.tree) (h : a.build? e = some r) :
    e.tree.Suits r.file r.kind := by
  cases a with
  | recursed | fetched =>
    cases h
    exact ha
  | entered path =>
    cases h
    exact suits_entryBuild he.tree path
  | _ => cases h

/-- A builder over sources remembers no module that it does not give. -/
theorem Serves.builder_of_inVain (he : e.Serves p) (h : s.InVain e r s') : s'.builder = s.builder := by
  obtain ⟨hno, hbuilder⟩ := h
  rw [he.builder] at hno hbuilder
  rw [hbuilder]
  have hb := Builder.sourceBuild p e.tree r s.builder
  generalize ((Builder.ofSources p e.tree).build r s.builder).1.result = result at hb hno
  generalize ((Builder.ofSources p e.tree).build r s.builder).2 = x at hb ⊢
  cases hb with
  | known => exact absurd rfl (hno _)
  | new => exact absurd rfl (hno _)
  | failed => rfl

/-- What the builder gives is kept only if it did not give it before, as it is or as the entry. What is queued is what was
read, and what the builder remembers is kept. -/
theorem Backed.new_of_brings (he : e.Serves p) (h : e.Backed s) (hb : s.Brings e r s') :
    (∀ i ∈ s'.builder, s'.Keeps i) ∧
      (∀ k ∈ s'.cache.modules, k ∈ s.cache.modules ∨
        (∃ uses, p.Yields e.tree r uses) ∧ (k = (r.target e.tree).1 ∨ k = e.entryRecord (r.target e.tree).1)) ∧
      ∀ k ∈ s'.pending, k ∈ s.pending ∨ k.uses = [] ∨ p.Yields e.tree r k.uses := by
  obtain ⟨o, m, ho, hbuilder, hof, hcache, hpending⟩ := hb
  have hid : m.identity = o.record.identity := by rcases hof with rfl | rfl <;> rfl
  rw [he.builder] at ho hbuilder
  obtain ⟨hrecord, hgiven⟩ := Builder.given_of_ofSources ho
  rcases hgiven with ⟨hknown, hnone, _, hsame⟩ | ⟨_, hyields, _, hnew⟩
  · refine ⟨fun i hi => ?_, fun k hk => ?_, fun k hk => ?_⟩
    · rw [hbuilder, hsame] at hi
      exact (Session.keeps_add hcache).2 (Or.inl (h.known i hi))
    · rw [hcache] at hk
      rcases Cache.mem_add hk with hk | ⟨_, hfree⟩
      · exact Or.inl hk
      · have hkept := h.known _ hknown
        rw [Session.Keeps, ← hid, hfree] at hkept
        cases hkept
    · refine (List.mem_append.1 (hpending hk)).imp_right fun hk => Or.inl ?_
      rw [List.mem_singleton.1 hk, hnone]
  · refine ⟨fun i hi => ?_, fun k hk => ?_, fun k hk => ?_⟩
    · rw [hbuilder, hnew] at hi
      rw [Session.keeps_add hcache, hid]
      exact (List.mem_cons.1 hi).symm.imp_left (h.known i)
    · rw [hcache] at hk
      rcases Cache.mem_add hk with hk | ⟨rfl, _⟩
      · exact Or.inl hk
      · exact Or.inr ⟨⟨_, hyields⟩, hrecord ▸ hof⟩
    · refine (List.mem_append.1 (hpending hk)).imp_right fun hk => Or.inr ?_
      rw [List.mem_singleton.1 hk]
      exact hyields

/-- What the builder gives and did not give before is backed by the tree. -/
theorem Backed.brings (he : e.Serves p) (h : e.Backed s) (hr : e.tree.Suits r.file r.kind) (hs' : e.Remembers s')
    (hb : s.Brings e r s') : e.Backed s' := by
  obtain ⟨hknown, hkept, hpending⟩ := h.new_of_brings he hb
  refine ⟨hs', hknown, fun k hk => ?_, fun k hk edge hedge => ?_⟩
  · rcases hkept k hk with hk | ⟨⟨uses, hyields⟩, hof⟩
    · exact h.kept k hk
    · have hbacked := BuildRequest.isBacked_target hr hyields
      rcases hof with rfl | rfl
      · exact hbacked
      · exact ⟨fun hp => ⟨(hbacked.housed hp).kind_ne, (hbacked.housed hp).isAbsolute, (hbacked.housed hp).directory⟩,
          hbacked.parses⟩
  · rcases hpending k hk with hk | hnone | hyields
    · exact h.pending k hk edge hedge
    · rw [hnone] at hedge
      cases hedge
    · exact fun file hfile => (BuildRequest.finds_of_yields hyields edge hedge file hfile).suits he.tree

/-- What may happen leaves a backed session backed. -/
theorem Backed.move (he : e.Serves p) (h : e.Backed s) {a : Action} (ha : a.Suits e.tree) (hm : Move e a s s') :
    e.Backed s' := by
  rcases hm.same_or_brings with ⟨hcache, hpending, hbuilder⟩ | ⟨r, hbuild, hbrings⟩
  · have hx : s'.builder = s.builder := by
      rcases hbuilder with hx | ⟨_, _, hvain⟩
      · exact hx
      · exact he.builder_of_inVain hvain
    refine ⟨h.remembers.move hm, fun i hi => ?_, hcache ▸ h.kept, fun m hmem => h.pending m (hpending hmem)⟩
    rw [hx] at hi
    rw [Session.Keeps, hcache]
    exact h.known i hi
  · exact h.brings he (he.of_build? ha hbuild) (h.remembers.move hm) hbrings

/-- A run of what may happen leaves a backed session backed. -/
theorem Backed.moves (he : e.Serves p) (h : e.Backed s) (hm : Moves e (Action.Suits e.tree) s s') : e.Backed s' :=
  hm.keeps (fun _ _ _ ha hm h => h.move he ha hm) h

/-- A step that leads on by what may happen leaves a backed session backed, also if it ends in an error. -/
theorem Backed.of_leads (he : e.Serves p) (h : e.Backed s) {α : Type} {x : Step _ α} {result : Except Error α}
    {post : α → Session (List Identity) → Prop} (hx : Leads e (Action.Suits e.tree) x s post)
    (hends : ends x s = (result, s')) : e.Backed s' := by
  have hm := hx.1
  rw [hends] at hm
  exact h.moves he hm

/-- What is found in the cache is backed by the tree. -/
theorem Backed.of_find? (h : e.Backed s) {i : Identity} {m : ModuleRecord} (hk : s.cache.find? i = some m) :
    m.IsBacked e.tree :=
  h.kept m (List.mem_of_find?_eq_some hk)

/-! ## Walks -/

/-- Over sources a module that is got is at the place that was asked for. Only in a directory that is named like an init
entry is it one step below. -/
theorem place_of_recursed (hb : e.builder = .ofSources p e.tree) (ht : e.tree.IsWellFormed) {r : RecursionRequest}
    {signalled : Bool} {m : ModuleRecord} (hr : r.file.path.isAbsolute = true)
    (h : Recursed e r signalled s (.ok (some m)) s') :
    m.file.place = r.file.place ∨ m.file.place = r.file.place ++ [.name initEntry] := by
  cases h with
  | known hk => exact Or.inl (congrArg Identity.place (Cache.identity_of_find? hk))
  | @built o events hnone ho =>
    rw [hb] at ho
    have hplace : (s.cache.add o.record).1.file.place = o.record.file.place := congrArg Identity.place Cache.identity_add
    rw [hplace, (Builder.given_of_ofSources ho).1]
    rcases r.toBuild.target_spec e.tree with ⟨htarget, _⟩ | ⟨_, _, hfile | ⟨_, hfile⟩⟩
    · rw [htarget]
      exact Or.inl rfl
    · rw [hfile]
      exact Or.inl rfl
    · have hchild : (r.toBuild.target e.tree).1.file.place = r.file.path.components := by
        rw [hfile]
        exact ModuleFile.place_child_initEntry ht.isAbsolute hr
      rw [hchild, ModuleFile.components_path]
      split
      · exact Or.inr rfl
      · exact Or.inl rfl

/-- There is no more below a module that is got than below the place that was asked for. -/
theorem below_le_of_recursed (hb : e.builder = .ofSources p e.tree) (ht : e.tree.IsWellFormed) {r : RecursionRequest}
    {signalled : Bool} {m : ModuleRecord} (hr : r.file.path.isAbsolute = true)
    (h : Recursed e r signalled s (.ok (some m)) s') : e.tree.below m.file.place ≤ e.tree.below r.file.place := by
  rcases place_of_recursed hb ht hr h with hplace | hplace <;> rw [hplace]
  exact e.tree.below_concat_le (List.ne_nil_of_mem (ModuleFile.root_mem_place hr)) ⟨Path.isStep_initEntry, by decide⟩

/-- Walking an item asks only for what may be asked for, and leaves less than the item. -/
theorem expand_suits (he : e.Serves p) (hs : e.Backed s) (item : WalkItem) :
    Leads e (Action.Suits e.tree) (e.expand item) s fun children _ => e.tree.Lighter item children := by
  cases item with
  | single path package =>
    have hvisits : ∀ a, Action.Visits e (e.tree.query? path package) a → a.Suits e.tree := by
      intro a ha
      cases a with
      | fetched r =>
        obtain ⟨q, _, hq, ⟨_, hfile, hkind⟩, _⟩ := ha
        obtain ⟨⟨bare, kind⟩, hat, rfl⟩ := Option.map_eq_some_iff.1 hq
        show e.tree.Suits r.file r.kind
        rw [hfile, hkind]
        exact FileTree.suits_of_moduleAt? he.tree hat
      | recursed | entered => exact ha.elim
      | _ => trivial
    refine ((walkSingle_leads hs.remembers path package).mono hvisits).weaken fun children s' hm h => ?_
    cases h with
    | @registered _ _ _ q _ r m _ hq _ hr hc hk hm' =>
      have hbacked := (hs.moves he hm).of_find? hk
      have hfile : r.file = .ofPath e.tree.workDir path := hr.2.1.trans (FileTree.file_of_query? hq)
      have habs : r.file.path.isAbsolute = true :=
        hfile ▸ ModuleFile.isAbsolute_ofPath he.tree.isAbsolute (FileTree.text_ne_of_query? hq)
      exact hm'.lighter he.tree (fun hp => ModuleFile.isAbsolute_identity (hbacked.housed hp).isAbsolute)
        (hfile ▸ below_le_of_recursed he.builder he.tree habs hc)
    | _ => exact .nil _ _
  | path path package =>
    exact (walkPath_leads path package trivial).weaken fun _ _ _ h => ⟨FileTree.isSingle_of_opened h, nofun⟩
  | pattern text =>
    exact (walkPattern_leads text trivial).weaken fun _ _ _ h => ⟨FileTree.isSingle_of_matched h, nofun⟩

/-! ## Operations -/

/-- Following the imports of a module asks only for what they lead to. -/
theorem suits_of_follows (he : e.Serves p) {m : ModuleRecord} {edges : List ImportEdge}
    (hedges : ∀ edge ∈ edges, edge.Suits e.tree) {a : Action} (ha : Action.Follows e m (e.Asks m edges) a) :
    a.Suits e.tree := by
  cases a with
  | recursed r signalled =>
    obtain ⟨_, q, _, hq, ⟨_, hfile, hkind⟩, _⟩ := ha
    show e.tree.Suits r.file r.kind
    rw [hfile, hkind]
    rcases hq.exists_file with ⟨edge, hedge, hmem, hof⟩ | ⟨imports, hi, i, himport, hmem, hof⟩ <;> rw [hof]
    · exact hedges edge hedge q.file hmem
    · exact he.plugins m imports hi i himport q.file hmem
  | fetched | entered => exact ha.elim
  | _ => trivial

/-- A session that asks only for what may be asked for goes on like that. -/
theorem confines_suits (he : e.Serves p) : e.Confines (Action.Suits e.tree) (fun _ => True) e.Backed where
  remembers _ hs := hs.remembers
  move _ _ _ ha hm hs := hs.move he ha hm
  quiet a ha := by
    cases a with
    | remarked | rooted | used | decided => trivial
    | _ => cases ha
  drained := trivial
  expand _ item hs _ := (expand_suits he hs item).weaken fun _ _ _ _ _ _ => trivial
  pending _ hs m hm _ ha := suits_of_follows he (hs.pending m hm) ha

end Engine

section Operations

variable {e : Engine (List Identity)} {p : SearchPath} {s : Session (List Identity)}

/-- An operation that suits the tree is given only what may happen. -/
theorem Operation.Suits.within (he : e.Serves p) {op : Operation} (hop : op.Suits e.tree) :
    op.Within e (Action.Suits e.tree) fun _ => True := by
  cases op with
  | consider m edges => exact fun _ ha => Engine.suits_of_follows he hop ha
  | recurse r signalled => exact hop
  | seed => exact fun _ _ => trivial
  | _ => trivial

/-- After such operations everything that is kept is backed by the tree. -/
theorem Engine.Backed.after (he : e.Serves p) {ops : List Operation} (hops : ∀ op ∈ ops, op.Suits e.tree)
    (hs : e.Backed s) : e.Backed (e.after ops s) :=
  (confines_suits he).after (fun op hop => (hops op hop).within he) hs

end Operations

end ImportClosure
