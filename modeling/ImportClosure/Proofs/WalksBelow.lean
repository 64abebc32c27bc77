import ImportClosure.Proofs.Backed
import ImportClosure.Proofs.MatchesBelow
import ImportClosure.Proofs.SideBySide
import ImportClosure.Proofs.Traversal

/-!
# Walks below two directories

The walks of one relative pattern from two directories correspond (`patterns_below`): the wildcards of a pattern are all that is
taken for wildcards, as long as there are none in the path of the directory. A directory with a class in its name is not found
again (`patterns_below_fails_in_brackets`).
-/

namespace ImportClosure

open ImportClosure.Path Step

/-- A policy that does not tell files below one directory from their counterparts below another. -/
structure Policy.Overlooks (p : Policy) (b b' : Place) : Prop where
  decide : ∀ (fs : List String) (name : ModuleName) (kind : ModuleKind),
    p.decide ⟨⟨(ofPlace b).down fs⟩, name, kind, true⟩ = p.decide ⟨⟨(ofPlace b').down fs⟩, name, kind, true⟩
  recursion : ∀ (fs : List String) (name : ModuleName) (kind : ModuleKind) (reason : String),
    (p.plugins.recursion ⟨name, ⟨(ofPlace b).down fs⟩, kind, none, none, reason⟩).isOk =
      (p.plugins.recursion ⟨name, ⟨(ofPlace b').down fs⟩, kind, none, none, reason⟩).isOk

/-- Two engines that walk sources under one policy, which does not tell the directories apart, in trees that are the same below
them. -/
structure Engine.SameBelow (e e' : Engine (List Identity)) (b b' : Place) (n : Nat) : Prop where
  policy_eq : e'.policy = e.policy
  overlooks : e.policy.Overlooks b b'
  tree : e.tree.SameBelow e'.tree b b' n
  builder : ∃ s, e.builder = .ofSources s e.tree
  builder' : ∃ s, e'.builder = .ofSources s e'.tree

/-- Two items that are walked below the directories. -/
inductive WalkItem.Counterpart (b b' : Place) (n : Nat) : WalkItem → WalkItem → Prop where
  | pattern {text : String} (isLocal : FilePattern.IsLocal n text) :
      Counterpart b b' n (.pattern ((ofPlace b).join ⟨text⟩).text) (.pattern ((ofPlace b').join ⟨text⟩).text)
  | single {fs : List String} {x : String} (last : IsStep x) (inside : Inside n (fs ++ [x])) (package : Option ModuleName) :
      Counterpart b b' n (.single ((ofPlace b).down (fs ++ [x])) package) (.single ((ofPlace b').down (fs ++ [x])) package)

/-- A member of counterparts is walked below the directories. -/
theorem WalkItem.Counterpart.of_child {b b' : Place} {n : Nat} {p p' : Path} (h : p.Counterpart b b' n p') {name : String}
    (hname : IsStep name ∧ name ≠ "..") (package : Option ModuleName) :
    WalkItem.Counterpart b b' n (.single (p.child name) package) (.single (p'.child name) package) := by
  cases h with
  | below steps inside =>
    rw [← down_concat, ← down_concat]
    exact .single hname.1 (inside.concat hname) package

/-- No module is called by a step up. -/
theorem FileTree.moduleAt?_parent (t : FileTree) (b : Place) (fs : List String) :
    t.moduleAt? ((ofPlace b).down (fs ++ [".."])) = none := by
  have habs := isAbsolute_down (HasDirectory.isAbsolute b) fs
  have hname : ((ofPlace b).down (fs ++ [".."])).fileName = none := by
    rw [down_concat, child, fileName, components_join habs (isAbsolute_of_not_mem (by decide))]
    simp [component?, isIdle, Path.fields, Text.fields, Text.split]
  rw [moduleAt?, hname]
  rfl

/-! ## Files that match -/

namespace FileTree.SameBelow

variable {t t' : FileTree} {b b' : Place} {n : Nat} {fs : List String} {p p' : Path} (h : t.SameBelow t' b b' n)
include h

/-- Files that match are walked below the directories, bytecode apart, and their counterparts are. -/
theorem single_of_abreast (hp : p.Abreast b b' n p') :
    (!Text.endsWith p.text bytecodeSuffix && t.isFile p) = (!Text.endsWith p'.text bytecodeSuffix && t'.isFile p') ∧
      (t.isFile p = true → WalkItem.Counterpart b b' n (.single p none) (.single p' none)) := by
  cases hp with
  | @below fs hfs =>
    rw [← h.isFile_eq hfs]
    cases hfile : t.isFile ((ofPlace b).down fs) with
    | false => exact ⟨by rw [Bool.and_false, Bool.and_false], nofun⟩
    | true =>
      obtain ⟨front, x, rfl, hx⟩ := h.exists_concat_of_isFile hfs hfile
      refine ⟨?_, fun _ => .single hx hfs none⟩
      have hsuffix : '/' ∉ bytecodeSuffix.toList := by decide
      have htext := fun base => ModuleFile.text_ne_nil_of_isAbsolute (isAbsolute_down (HasDirectory.isAbsolute base) front)
      rw [down_concat, down_concat, endsWith_child_eq (htext b) hx.1 hsuffix, endsWith_child_eq (htext b') hx.1 hsuffix]

end FileTree.SameBelow

namespace Engine.SameBelow

variable {e e' : Engine (List Identity)} {b b' : Place} {n : Nat} {f f' : ModuleFile} {m m' : ModuleRecord} {p p' : Path}
  (h : e.SameBelow e' b b' n)

/-! ## Single steps -/

section Steps

theorem includeFailed (p p' : Path) :
    Corresponds (Session.Counterpart b b' n) (List.Forall₂ (WalkItem.Counterpart b b' n)) (Engine.includeFailed p)
      (Engine.includeFailed p') :=
  .bind (.update fun _ _ hs => hs.diagnose rfl) fun _ _ _ => .pure .nil

include h

theorem trace (event event' : Event) :
    Corresponds (Session.Counterpart b b' n) (fun _ _ => True) (e.trace event) (e'.trace event') := by
  unfold Engine.trace
  rw [h.policy_eq]
  split
  · exact .update fun _ _ hs => hs.of_eq_events
  · exact .pure trivial

/-- The same is decided about counterparts. -/
theorem decide (hf : f.Counterpart b b' n f') (name : ModuleName) (kind : ModuleKind) :
    Corresponds (Session.Counterpart b b' n) Eq (e.decide ⟨f, name, kind, true⟩) (e'.decide ⟨f', name, kind, true⟩) := by
  intro s s' hs
  have hkey : (Query.key ⟨f, name, kind, true⟩).Counterpart b b' (Query.key ⟨f', name, kind, true⟩) :=
    ⟨h.tree.identity hf name, rfl, rfl⟩
  have hsame : e.policy.decide ⟨f, name, kind, true⟩ = e'.policy.decide ⟨f', name, kind, true⟩ := by
    rw [h.policy_eq]
    cases hf with
    | below => exact h.overlooks.decide _ name kind
  have hlookup := hs.lookup_eq hkey
  rcases e.ends_decide ⟨f, name, kind, true⟩ s with ⟨d, hd, hends⟩ | ⟨hnone, events, hends⟩ <;>
    rcases e'.ends_decide ⟨f', name, kind, true⟩ s' with ⟨d', hd', hends'⟩ | ⟨hnone', events', hends'⟩ <;> rw [hends, hends']
  · rw [hd, hd'] at hlookup
    exact ⟨.ok (Option.some.inj hlookup), hs⟩
  · rw [hd, hnone'] at hlookup
    cases hlookup
  · rw [hnone, hd'] at hlookup
    cases hlookup
  · exact ⟨.ok hsame, hs.builder, .cons ⟨hkey, hsame⟩ hs.decisions, hs.modules, hs.roots, hs.pending, hs.kinds⟩

/-- Counterparts are built alike. -/
theorem build {r r' : BuildRequest} (hr : r' = { r with file := r'.file }) (hf : r.file.Counterpart b b' n r'.file)
    (hidden : r.hideSyntaxError = true) :
    Corresponds (Session.Counterpart b b' n)
      (Option.Rel fun o o' => o.record.Counterpart b b' n o'.record ∧ o.newlyBuilt = o'.newlyBuilt)
      (e.build r) (e'.build r') := by
  intro s s' hs
  obtain ⟨p, hp⟩ := h.builder
  obtain ⟨p', hp'⟩ := h.builder'
  obtain ⟨events, hends⟩ := e.ends_build r s
  obtain ⟨events', hends'⟩ := e'.ends_build r' s'
  obtain ⟨hresult, hbuilder⟩ := h.tree.build p p' hr hf hidden hs.builder
  rw [hends, hends', hp, hp']
  generalize ((Builder.ofSources p e.tree).build r s.builder).1.result = result,
    ((Builder.ofSources p' e'.tree).build r' s'.builder).1.result = result' at hresult ⊢
  cases hresult with
  | passedOver => exact ⟨.ok .none, hbuilder, hs.decisions, hs.modules, hs.roots, hs.pending, hs.kinds⟩
  | built hrecord hnewly =>
    exact ⟨.ok (.some ⟨hrecord, hnewly⟩), hbuilder, hs.decisions, hs.modules, hs.roots, hs.pending, hs.kinds⟩

/-- Counterparts are got alike. -/
theorem recurse (hf : f.Counterpart b b' n f') (name : ModuleName) (kind : ModuleKind) (reason : String) (signalled : Bool) :
    Corresponds (Session.Counterpart b b' n) (Option.Rel (ModuleRecord.Counterpart b b' n))
      (e.recurse ⟨name, f, kind, none, none, reason⟩ signalled) (e'.recurse ⟨name, f', kind, none, none, reason⟩ signalled) := by
  have hallowed : (e.policy.plugins.recursion ⟨name, f, kind, none, none, reason⟩).isOk =
      (e'.policy.plugins.recursion ⟨name, f', kind, none, none, reason⟩).isOk := by
    rw [h.policy_eq]
    cases hf with
    | below => exact h.overlooks.recursion _ name kind reason
  unfold Engine.recurse
  refine .get_bind fun s s' hs => ?_
  have hfind := hs.find? h.tree (h.tree.identity hf name)
  unfold Cache.get?
  generalize s.cache.find? ⟨name, f.place⟩ = kept, s'.cache.find? ⟨name, f'.place⟩ = kept' at hfind
  cases hfind with
  | some hkept => exact ⟨.ok (.some hkept), hs⟩
  | none =>
    dsimp only
    generalize e.policy.plugins.recursion ⟨name, f, kind, none, none, reason⟩ = answer,
      e'.policy.plugins.recursion ⟨name, f', kind, none, none, reason⟩ = answer' at hallowed
    rcases answer with what | _ <;> rcases answer' with what' | _
    · exact ⟨.error rfl, hs⟩
    · cases hallowed
    · cases hallowed
    · refine Corresponds.bind (.update fun _ _ hs => hs.of_eq_events) (fun _ _ _ => ?_) s s' hs
      refine .bind (h.build rfl hf rfl) fun outcome outcome' houtcome => ?_
      cases houtcome with
      | none => exact .pure .none
      | some ho =>
        refine .bind (R := ModuleRecord.Counterpart b b' n) (fun s s' hs => ?_) fun _ _ hm => .pure (.some hm)
        rw [Engine.ends_accept, Engine.ends_accept]
        exact ⟨.ok (hs.add h.tree ho.1).1, hs.accepted h.tree ho.1 ho.2 reason signalled⟩

theorem fetch (hf : f.Counterpart b b' n f') (name : ModuleName) (kind : ModuleKind) (reason : String) :
    Corresponds (Session.Counterpart b b' n) (Option.Rel (ModuleRecord.Counterpart b b' n))
      (e.fetch ⟨name, f, kind, none, none, reason⟩) (e'.fetch ⟨name, f', kind, none, none, reason⟩) := by
  unfold Engine.fetch
  refine .bind (h.recurse hf name kind reason false) fun found found' hfound => ?_
  cases hfound with
  | none => exact .pure .none
  | some hm => exact .bind (.update fun _ _ hs => hs.of_eq_events) fun _ _ _ => .pure (.some hm)

theorem reportExtension (name : ModuleName) (kind : ModuleKind) :
    Corresponds (Session.Counterpart b b' n) (fun _ _ => True) (e.reportExtension name kind) (e'.reportExtension name kind) := by
  unfold Engine.reportExtension
  rw [h.policy_eq]
  split
  · exact .update fun _ _ hs => hs.diagnose rfl
  · exact .pure trivial

theorem openPackage (hm : m.Counterpart b b' n m') :
    Corresponds (Session.Counterpart b b' n) (Path.Counterpart b b' n) (Engine.openPackage m) (Engine.openPackage m') := by
  have hpackage : m.isPackage = m'.isPackage := by rw [hm.same]
  unfold Engine.openPackage ModuleRecord.isNamespacePackage
  rw [hpackage, hm.file.isInitEntry_eq]
  split
  · exact .pure hm.file.path
  · refine .bind (.update fun _ _ hs => hs.addRoot h.tree hm) fun _ _ _ => ?_
    obtain ⟨dir, dir', hdir, hdir', hcounter⟩ := h.tree.exists_parent? hm.file
    rw [hdir, hdir']
    exact .pure hcounter

theorem namesIn (hp : p.Counterpart b b' n p') :
    Corresponds (Session.Counterpart b b' n) (fun names names' => names = names' ∧ ∀ name ∈ names, IsStep name ∧ name ≠ "..")
      (e.namesIn p) (e'.namesIn p') := by
  have hlist : (e.tree.list p).toOption = (e'.tree.list p').toOption := by
    cases hp with
    | below _ inside => exact (h.tree.seen_down_eq inside).2
  unfold Engine.namesIn
  cases hl : e.tree.list p with
  | error cause =>
    cases hl' : e'.tree.list p' with
    | error cause' => exact .throw rfl
    | ok names' =>
      rw [hl, hl'] at hlist
      cases hlist
  | ok names =>
    cases hl' : e'.tree.list p' with
    | error cause' =>
      rw [hl, hl'] at hlist
      cases hlist
    | ok names' =>
      rw [hl, hl'] at hlist
      exact .pure ⟨Option.some.inj hlist, (h.tree.base.wellFormed.names_of_list hl).2⟩

/-- The same entries of counterparts are walked. -/
theorem isMember_eq (hp : p.Counterpart b b' n p') {name : String} (hname : IsStep name ∧ name ≠ "..") :
    isMember e.tree p name = isMember e'.tree p' name := by
  have hpackage : e.tree.isPackage (p.child name) = e'.tree.isPackage (p'.child name) :=
    h.tree.isPackage_eq (.of_child hp hname)
  have hsource := hp.child (isStep_append (Or.inl rfl) hname.1.1)
  have hshadow : e.tree.exists? ⟨(p.child name).text ++ sourceSuffix⟩ =
      e'.tree.exists? ⟨(p'.child name).text ++ sourceSuffix⟩ := by
    rw [← child_append_sourceSuffix hp.isAbsolute.1 hname.1, ← child_append_sourceSuffix hp.isAbsolute.2 hname.1]
    exact h.tree.exists?_path_eq hsource
  rw [isMember, isMember, hpackage, hshadow]

/-- Members of counterparts are left to be walked. -/
theorem registerIncluded (hm : m.Counterpart b b' n m') :
    Corresponds (Session.Counterpart b b' n) (List.Forall₂ (WalkItem.Counterpart b b' n)) (e.registerIncluded m)
      (e'.registerIncluded m') := by
  have hname : m.name = m'.name := by rw [hm.same]
  have hkind : m.kind = m'.kind := by rw [hm.same]
  have hpackage : m.isPackage = m'.isPackage := by rw [hm.same]
  unfold Engine.registerIncluded
  refine .bind (h.trace _ _) fun _ _ _ => .bind (.update fun _ _ hs => hs.keep h.tree hm) fun _ _ _ => ?_
  rw [hpackage, hkind, h.policy_eq]
  split
  · split
    · exact .throw rfl
    · refine .bind (h.openPackage hm) fun dir dir' hdir => .bind (h.trace _ _) fun _ _ _ => ?_
      refine .bind (h.namesIn hdir) fun names names' hnames => .pure ?_
      obtain ⟨rfl, hsteps⟩ := hnames
      have hmembers : names.filter (isMember e.tree dir) = names.filter (isMember e'.tree dir') :=
        List.filter_congr fun name hmem => h.isMember_eq hdir (hsteps name hmem)
      rw [hmembers, hname]
      refine List.forall₂_map_left_iff.2 (List.forall₂_map_right_iff.2 (List.forall₂_same.2 fun name hmem => ?_))
      exact .of_child hdir (hsteps name (List.mem_filter.1 hmem).1) _
  · split
    · exact .bind (.update fun _ _ hs => hs.addRoot h.tree hm) fun _ _ _ => .pure .nil
    · exact .pure .nil

/-- One item below the directories is walked as its counterpart is. -/
theorem walkSingle {fs : List String} {x : String} (last : IsStep x) (inside : Inside n (fs ++ [x]))
    (package : Option ModuleName) :
    Corresponds (Session.Counterpart b b' n) (List.Forall₂ (WalkItem.Counterpart b b' n))
      (e.walkSingle ((ofPlace b).down (fs ++ [x])) package) (e'.walkSingle ((ofPlace b').down (fs ++ [x])) package) := by
  -- the file of the item is written without the fields that do nothing
  have hidle : (fs ++ [x]).filter (fun f => !isIdle f) = fs.filter (fun f => !isIdle f) ++ [x] := by
    simp [List.filter_append, last.2]
  have hinside := inside.filter
  rw [hidle] at hinside
  unfold Engine.walkSingle
  simp only [ModuleFile.ofPath, absolute_down_concat h.tree.base.steps inside.of_concat.slashless last,
    absolute_down_concat h.tree.base'.steps inside.of_concat.slashless last, hidle]
  refine .bind (h.trace _ _) fun _ _ _ => ?_
  by_cases hup : x = ".."
  · subst hup
    rw [FileTree.moduleAt?_parent, FileTree.moduleAt?_parent]
    exact .pure .nil
  have hfile : ModuleFile.Counterpart b b' n ⟨(ofPlace b).down (fs.filter (fun f => !isIdle f) ++ [x])⟩
      ⟨(ofPlace b').down (fs.filter (fun f => !isIdle f) ++ [x])⟩ :=
    .below (fun f hf => ⟨hinside.slashless f (List.mem_append_left _ hf), by simpa using (List.mem_filter.1 hf).2⟩) ⟨last, hup⟩
      hinside
  rw [← h.tree.moduleAt?_eq hfile]
  rcases e.tree.moduleAt? _ with _ | ⟨bare, kind⟩
  · exact .pure .nil
  · refine .bind (h.reportExtension _ _) fun _ _ _ => .bind (h.decide hfile _ kind) fun d d' hd => ?_
    cases hd
    cases d with
    | included reason =>
      refine .bind (h.fetch hfile _ kind _) fun found found' hfound => ?_
      cases hfound with
      | none => exact includeFailed _ _
      | some hm => exact h.registerIncluded hm
    | excluded reason => exact .bind (.update fun _ _ hs => hs.diagnose rfl) fun _ _ _ => .pure .nil
    | undecided reason => exact .bind (.update fun _ _ hs => hs.diagnose rfl) fun _ _ _ => .pure .nil

/-! ## Patterns -/

/-- A pattern that does not lead out is walked below the directories alike. -/
theorem walkPattern (hb : FilePattern.IsPlain b) (hb' : FilePattern.IsPlain b') {pattern : String}
    (hp : FilePattern.IsLocal n pattern) :
    Corresponds (Session.Counterpart b b' n) (List.Forall₂ (WalkItem.Counterpart b b' n))
      (e.walkPattern ((ofPlace b).join ⟨pattern⟩).text) (e'.walkPattern ((ofPlace b').join ⟨pattern⟩).text) := by
  unfold Engine.walkPattern
  refine .bind (h.trace _ _) fun _ _ _ => ?_
  rcases FilePattern.read_below h.tree.base h.tree.base' hb hb' hp.relative with
    ⟨fault, fault', hread, hread'⟩ | ⟨steps, directoriesOnly, hsteps, hread, hread'⟩
  · -- each of the two is refused, as a directory or as no pattern
    simp only [hread, hread']
    split <;> split <;> exact .throw rfl
  have hinside := hp.inside hsteps
  have hdir : e.tree.isDir ((ofPlace b).join ⟨pattern⟩) = e'.tree.isDir ((ofPlace b').join ⟨pattern⟩) := by
    rw [FileTree.isDir, FileTree.isDir, (h.tree.seen_eq (h.tree.base.leadsBelow_join hp.relative)
      (h.tree.base'.leadsBelow_join hp.relative) hinside).1]
  have hnames : FilePattern.HasNames steps := fun step hstep =>
    (FilePattern.of_read hread).2 step (List.mem_append_right _ hstep)
  have hmatching := h.tree.matching_below hnames (hp.staysBelow hsteps) (hp.steps_le hsteps) directoriesOnly
  have hfiles := forall₂_filter hmatching (fun p p' hp => (h.tree.single_of_abreast hp).1) fun p p' hp hfile =>
    (h.tree.single_of_abreast hp).2 (Bool.and_eq_true_iff.1 hfile).2
  have hitems := List.forall₂_map_left_iff.2 (List.forall₂_map_right_iff.2 hfiles)
  simp only [hread, hread', hdir, forall₂_isEmpty hfiles]
  split
  · exact .throw rfl
  · split
    · exact .bind (.update fun _ _ hs => hs.diagnose rfl) fun _ _ _ => .pure hitems
    · exact .pure hitems

theorem expand (hb : FilePattern.IsPlain b) (hb' : FilePattern.IsPlain b') {item item' : WalkItem}
    (hitem : item.Counterpart b b' n item') :
    Corresponds (Session.Counterpart b b' n) (List.Forall₂ (WalkItem.Counterpart b b' n)) (e.expand item) (e'.expand item') := by
  cases hitem with
  | pattern isLocal => exact h.walkPattern hb hb' isLocal
  | single last inside package => exact h.walkSingle last inside package

end Steps

/-! ## Walks -/

/-- Over sources what an item leaves weighs less than the item. -/
theorem lighter_of_sources {e : Engine (List Identity)} {p : SearchPath} (hb : e.builder = .ofSources p e.tree)
    (ht : e.tree.IsWellFormed) {item : WalkItem} {children : List WalkItem} {s s' : Session (List Identity)}
    (hends : ends (e.expand item) s = (.ok children, s')) : e.tree.Lighter item children := by
  refine lighter_of_got (fun r m s s' hr hc => ⟨?_, below_le_of_recursed hb ht hr hc⟩) ht hends
  have hroot := ModuleFile.root_mem_place hr
  rcases place_of_recursed hb ht hr hc with hplace | hplace <;> rw [hplace]
  · exact hroot
  · exact List.mem_append_left _ hroot

section Walks

include h

/-- Items are walked as their counterparts are, with all that is below them. -/
theorem walked (hb : FilePattern.IsPlain b) (hb' : FilePattern.IsPlain b') {items items' : List WalkItem}
    (hitems : List.Forall₂ (WalkItem.Counterpart b b' n) items items') {s s' s₁ : Session (List Identity)}
    (hs : s.Counterpart b b' n s') {result : Except Error Unit} (hw : e.Walked items s result s₁) :
    ∃ result' s₁', e'.Walked items' s' result' s₁' ∧ Except.Corresponds (fun _ _ => True) result result' ∧
      s₁.Counterpart b b' n s₁' := by
  induction hw generalizing items' s' with
  | done =>
    cases hitems
    exact ⟨_, _, .done, .ok trivial, hs⟩
  | stopped hends =>
    obtain _ | ⟨hitem, hrest⟩ := hitems
    rename_i item' rest'
    obtain ⟨hvalue, hsession⟩ := h.expand hb hb' hitem _ _ hs
    rcases hends' : ends (e'.expand item') s' with ⟨value', s₁'⟩
    rw [hends, hends'] at hvalue hsession
    cases hvalue with
    | error hkind => exact ⟨_, _, .stopped hends', .error hkind, hsession⟩
  | more hends _ ih =>
    obtain _ | ⟨hitem, hrest⟩ := hitems
    rename_i item' rest'
    obtain ⟨hvalue, hsession⟩ := h.expand hb hb' hitem _ _ hs
    rcases hends' : ends (e'.expand item') s' with ⟨value', s₁'⟩
    rw [hends, hends'] at hvalue hsession
    cases hvalue with
    | ok hchildren =>
      obtain ⟨result', s₂', hw', hresult, hleft⟩ := ih (List.rel_append hchildren hrest) hsession
      exact ⟨result', s₂', .more hends' hw', hresult, hleft⟩

/-- The bounds of the two walks differ with the trees, but neither of them counts. -/
theorem walk (hb : FilePattern.IsPlain b) (hb' : FilePattern.IsPlain b') {item item' : WalkItem}
    (hitem : item.Counterpart b b' n item') :
    Corresponds (Session.Counterpart b b' n) (fun _ _ => True) (e.walk item) (e'.walk item') := by
  intro s s' hs
  obtain ⟨p, hp⟩ := h.builder
  obtain ⟨p', hp'⟩ := h.builder'
  have hw := walked_walk_of_lighter (I := fun _ => True)
    (fun _ _ _ _ _ hends => ⟨trivial, lighter_of_sources hp h.tree.base.wellFormed hends⟩) trivial item (s := s)
  have hw' := walked_walk_of_lighter (I := fun _ => True)
    (fun _ _ _ _ _ hends => ⟨trivial, lighter_of_sources hp' h.tree.base'.wellFormed hends⟩) trivial item' (s := s')
  obtain ⟨result', s₁', hwalked, hresult, hsession⟩ := h.walked hb hb' (.cons hitem .nil) hs hw
  obtain ⟨rfl, rfl⟩ := hwalked.unique hw'
  exact ⟨hresult, hsession⟩

end Walks

end Engine.SameBelow

/-- From sessions that keep counterparts, relative patterns that do not lead out of the directories that they are taken from
include counterparts, in two trees that are the same below the directories, however the directories are called: what is kept,
queued and made a root are counterparts, and what is reported, or what stops either of the two, is of the same kinds. The
wildcards of a pattern are all that is taken for wildcards if there are none in the paths of the directories. -/
theorem patterns_below {e e' : Engine (List Identity)} {b b' : Place} {n : Nat} (h : e.SameBelow e' b b' n)
    (hb : FilePattern.IsPlain b) (hb' : FilePattern.IsPlain b') {patterns : List String}
    (hpatterns : ∀ pattern ∈ patterns, FilePattern.IsLocal n pattern) :
    Corresponds (Session.Counterpart b b' n) (fun _ _ => True) (e.seedIncludes { patterns } (ofPlace b))
      (e'.seedIncludes { patterns } (ofPlace b')) := by
  unfold Engine.seedIncludes
  refine .bind (R := fun _ _ => True) (.pure trivial) fun _ _ _ => ?_
  refine .forM (R := fun p q => p = q ∧ FilePattern.IsLocal n p) (List.forall₂_same.2 fun p hp => ⟨rfl, hpatterns p hp⟩) ?_
  rintro p _ ⟨rfl, hlocal⟩
  exact h.walk hb hb' (.pattern hlocal)

/-- A tree with one source, in a directory of this name. -/
def FileTree.withSource (dir : String) : FileTree :=
  (FileTree.empty ⟨"/w"⟩).add ["w", dir, "x.py"] (.text "")

/-- What stands below the directory does not depend on its name. -/
theorem FileTree.content?_withSource (dir : String) (rest : Place) : (withSource dir).content? (["w", dir] ++ rest) =
    if rest = [] then some .directory else if rest = ["x.py"] then some (.text "") else none := by
  have hentries : (withSource dir).entries = [(["w"], .directory), (["w", dir], .directory), (["w", dir, "x.py"], .text "")] := by
    simp [withSource, add, empty, above, addNew, content?, List.lookup_cons, List.range_succ]
  rw [content?, hentries]
  by_cases hnil : rest = []
  · simp [hnil, List.lookup_cons]
  by_cases hsource : rest = ["x.py"]
  · simp [hsource, List.lookup_cons]
  · simp [hnil, hsource, List.lookup_cons, List.isEmpty_eq_false_iff.2 hnil, beq_eq_false_iff_ne.2 hsource]

/-- The session that the pattern of all sources leaves, from the directory of this name. -/
def Session.ofSourcesIn (dir : String) : Session (List Identity) :=
  (ends ((Engine.overSources (.withSource dir)).seedIncludes { patterns := ["*.py"] } (ofPlace ["w", dir])) (.fresh [])).2

/-- The source of a directory is included by the pattern of all sources, also if there is a closing bracket in the name of the
directory. -/
theorem patterns_below_withSource :
    (Session.ofSourcesIn "ab").Counterpart ["w", "ab"] ["w", "a]b c"] 1 (Session.ofSourcesIn "a]b c") ∧
      (Session.ofSourcesIn "ab").cache.modules.map (fun m => m.file.path.text) = ["/w/ab/x.py"] := by
  refine ⟨?_, by decide +kernel⟩
  have htrees : (FileTree.withSource "ab").SameBelow (.withSource "a]b c") ["w", "ab"] ["w", "a]b c"] 1 := by
    refine ⟨⟨?_, by decide, by decide, by decide +kernel⟩, ⟨?_, by decide, by decide, by decide +kernel⟩, fun rest => ?_, 5,
      fun rest hrest => ?_, by decide, by decide⟩
    · exact (FileTree.isWellFormed_empty (by decide) (by decide)).add _ (by decide)
    · exact (FileTree.isWellFormed_empty (by decide) (by decide)).add _ (by decide)
    · rw [FileTree.content?_withSource, FileTree.content?_withSource]
    · rw [FileTree.content?_withSource] at hrest
      split at hrest
      next hnil => simp [hnil, written]
      next =>
        split at hrest
        next hsource => rw [hsource]; decide
        next => cases hrest
  have h : (Engine.overSources (.withSource "ab")).SameBelow (.overSources (.withSource "a]b c")) ["w", "ab"] ["w", "a]b c"] 1 :=
    ⟨rfl, ⟨fun _ _ _ => rfl, fun _ _ _ _ => rfl⟩, htrees, ⟨_, rfl⟩, ⟨_, rfl⟩⟩
  have hfresh : (Session.fresh []).Counterpart ["w", "ab"] ["w", "a]b c"] 1 (.fresh []) := ⟨.nil, .nil, .nil, .nil, .nil, rfl⟩
  exact (patterns_below h (by decide) (by decide) (by decide) _ _ hfresh).2

/-- A directory whose name holds a class is not found by its own name: its source is not included, and the pattern is reported
to match nothing. -/
theorem patterns_below_fails_in_brackets :
    (Session.ofSourcesIn "ab").cache.modules.map (fun m => m.file.path.text) = ["/w/ab/x.py"] ∧
      (Session.ofSourcesIn "ab").diagnostics.map Diagnostic.kind = [] ∧
      (Session.ofSourcesIn "a[b]").cache.modules.map (fun m => m.file.path.text) = [] ∧
      (Session.ofSourcesIn "a[b]").diagnostics.map Diagnostic.kind = ["pattern-match-empty"] := by
  decide +kernel

end ImportClosure
