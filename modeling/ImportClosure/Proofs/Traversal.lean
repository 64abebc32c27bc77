import ImportClosure.Proofs.Roots
import ImportClosure.Proofs.WalkGraph

/-!
# Walks as recursive traversals

A walk keeps what is still to be walked on a stack, and counts how far it may go. The count never cuts a walk short: what an
item leaves weighs less than the item (`Engine.walked_walk_of_lighter`), so the walk is that of the stack alone
(`Engine.Walked`). The stack holds what a recursion would come back to. A traversal that walks each item with all that is
below it, one item after the other, comes to the same (`walk_traverses`).
-/

namespace ImportClosure

variable {σ : Type}

open Step

namespace Engine

variable {e : Engine σ} {s s' s₁ : Session σ} {result : Except Error Unit} {items rest : List WalkItem}

/-! ## With a stack -/

/-- Walking items with all that is below them, however long that takes: what it comes to, and the session that it leaves. -/
inductive Walked (e : Engine σ) : List WalkItem → Session σ → Except Error Unit → Session σ → Prop where
  | done {s : Session σ} : Walked e [] s (.ok ()) s
  | stopped {item : WalkItem} {rest : List WalkItem} {s s' : Session σ} {err : Error}
      (h : ends (e.expand item) s = (.error err, s')) : Walked e (item :: rest) s (.error err) s'
  | more {item : WalkItem} {children rest : List WalkItem} {s s₁ s' : Session σ} {result : Except Error Unit}
      (h : ends (e.expand item) s = (.ok children, s₁)) (hw : Walked e (children ++ rest) s₁ result s') :
      Walked e (item :: rest) s result s'

/-- A walk comes to one thing only. -/
theorem Walked.unique {result' : Except Error Unit} (h : e.Walked items s result s') (h' : e.Walked items s result' s₁) :
    result = result' ∧ s' = s₁ := by
  induction h with
  | done =>
    cases h'
    exact ⟨rfl, rfl⟩
  | stopped h =>
    cases h' with
    | stopped h' =>
      cases h.symm.trans h'
      exact ⟨rfl, rfl⟩
    | more h' => cases h.symm.trans h'
  | more h _ ih =>
    cases h' with
    | stopped h' => cases h.symm.trans h'
    | more h' hw' =>
      cases h.symm.trans h'
      exact ih hw'

section Bounds

variable {I : Session σ → Prop}

/-- A bound that is no less than what the items weigh is none. -/
theorem walked_walkStack_of_lighter
    (hexpand : ∀ s item children s₁, I s → ends (e.expand item) s = (.ok children, s₁) →
      I s₁ ∧ e.tree.Lighter item children) {bound : Nat} (hs : I s) (hitems : ∀ item ∈ items, item.isSingle = true)
    (hbound : (items.map e.tree.weight).sum ≤ bound) :
    e.Walked items s (ends (e.walkStack bound items) s).1 (ends (e.walkStack bound items) s).2 := by
  induction bound generalizing items s with
  | zero =>
    cases items with
    | nil => exact .done
    | cons item rest =>
      have hpos := e.tree.weight_pos item
      rw [List.map_cons, List.sum_cons] at hbound
      omega
  | succ bound ih =>
    cases items with
    | nil => exact .done
    | cons item rest =>
      rw [walkStack]
      rcases h : ends (e.expand item) s with ⟨err | children, s₁⟩
      · rw [ends_bind_error h]
        exact .stopped h
      · rw [ends_bind_ok h]
        obtain ⟨hs₁, hlighter⟩ := hexpand s item children s₁ hs h
        have hlt := hlighter.sum_lt (hitems item List.mem_cons_self)
        rw [List.map_cons, List.sum_cons] at hbound
        refine .more h (ih hs₁ (fun child hmem => ?_) ?_)
        · rcases List.mem_append.1 hmem with hmem | hmem
          · exact hlighter.isSingle child hmem
          · exact hitems child (List.mem_cons_of_mem item hmem)
        · rw [List.map_append, List.sum_append]
          omega

/-- The bound of a walk is none, if whatever is expanded leaves less than it was. -/
theorem walked_walk_of_lighter
    (hexpand : ∀ s item children s₁, I s → ends (e.expand item) s = (.ok children, s₁) →
      I s₁ ∧ e.tree.Lighter item children) (hs : I s) (item : WalkItem) :
    e.Walked [item] s (ends (e.walk item) s).1 (ends (e.walk item) s).2 := by
  unfold walk
  rcases h : ends (e.expand item) s with ⟨err | children, s₁⟩
  · rw [ends_bind_error h]
    exact .stopped h
  · rw [ends_bind_ok h]
    obtain ⟨hs₁, hlighter⟩ := hexpand s item children s₁ hs h
    refine .more h ?_
    rw [List.append_nil]
    exact walked_walkStack_of_lighter hexpand hs₁ hlighter.isSingle (e.tree.sum_weight_le children)

end Bounds

/-! ## By recursion -/

/-- Traversing items: each of them is expanded, what it leaves is traversed, and then the items behind it are. The first
error ends this. -/
inductive Traversed (e : Engine σ) : List WalkItem → Session σ → Except Error Unit → Session σ → Prop where
  | done {s : Session σ} : Traversed e [] s (.ok ()) s
  | stopped {item : WalkItem} {rest : List WalkItem} {s s' : Session σ} {err : Error}
      (h : ends (e.expand item) s = (.error err, s')) : Traversed e (item :: rest) s (.error err) s'
  | stoppedBelow {item : WalkItem} {children rest : List WalkItem} {s s₁ s' : Session σ} {err : Error}
      (h : ends (e.expand item) s = (.ok children, s₁)) (hbelow : Traversed e children s₁ (.error err) s') :
      Traversed e (item :: rest) s (.error err) s'
  | next {item : WalkItem} {children rest : List WalkItem} {s s₁ s₂ s' : Session σ} {result : Except Error Unit}
      (h : ends (e.expand item) s = (.ok children, s₁)) (hbelow : Traversed e children s₁ (.ok ()) s₂)
      (hrest : Traversed e rest s₂ result s') : Traversed e (item :: rest) s result s'

/-- Traversing items and others behind them is traversing the ones and, unless that ends in an error, the others. -/
theorem Traversed.split (h : e.Traversed (items ++ rest) s result s') :
    (∃ err, result = .error err ∧ e.Traversed items s (.error err) s') ∨
      ∃ s₁, e.Traversed items s (.ok ()) s₁ ∧ e.Traversed rest s₁ result s' := by
  induction items generalizing s with
  | nil => exact Or.inr ⟨s, .done, h⟩
  | cons item items ih =>
    cases h with
    | stopped h => exact Or.inl ⟨_, rfl, .stopped h⟩
    | stoppedBelow h hbelow => exact Or.inl ⟨_, rfl, .stoppedBelow h hbelow⟩
    | next h hbelow hrest =>
      rcases ih hrest with ⟨err, rfl, hitems⟩ | ⟨s₁, hitems, hrest⟩
      · exact Or.inl ⟨err, rfl, .next h hbelow hitems⟩
      · exact Or.inr ⟨s₁, .next h hbelow hitems, hrest⟩

/-- A walk with a stack is a traversal: what lies on the stack below the children of an item is what the recursion comes
back to. -/
theorem Walked.traversed (h : e.Walked items s result s') : e.Traversed items s result s' := by
  induction h with
  | done => exact .done
  | stopped h => exact .stopped h
  | more h _ ih =>
    rcases ih.split with ⟨err, rfl, hbelow⟩ | ⟨s₁, hbelow, hrest⟩
    · exact .stoppedBelow h hbelow
    · exact .next h hbelow hrest

/-- A traversal is a walk with a stack, on which anything else may lie below: it is walked next, unless there was an error. -/
theorem Traversed.walked_append (h : e.Traversed items s result s') (rest : List WalkItem) :
    (∀ err, result = .error err → e.Walked (items ++ rest) s (.error err) s') ∧
      (result = .ok () → ∀ final s₁, e.Walked rest s' final s₁ → e.Walked (items ++ rest) s final s₁) := by
  induction h generalizing rest with
  | done => exact ⟨nofun, fun _ _ _ hrest => hrest⟩
  | stopped h =>
    refine ⟨fun err herr => ?_, nofun⟩
    cases herr
    exact .stopped h
  | stoppedBelow h _ ih =>
    refine ⟨fun err herr => ?_, nofun⟩
    cases herr
    exact .more h ((ih _).1 _ rfl)
  | next h _ _ ihbelow ihrest =>
    refine ⟨fun err herr => ?_, fun hok final s₁ hrest => ?_⟩
    · exact .more h ((ihbelow _).2 rfl _ _ ((ihrest rest).1 err herr))
    · exact .more h ((ihbelow _).2 rfl _ _ ((ihrest rest).2 hok final s₁ hrest))

theorem Traversed.walked (h : e.Traversed items s result s') : e.Walked items s result s' := by
  obtain ⟨herror, hok⟩ := h.walked_append []
  rw [List.append_nil] at herror hok
  cases result with
  | error err => exact herror err rfl
  | ok _ => exact hok rfl _ _ .done

/-! ## Builders that give what is asked for -/

/-- What a path leaves are the members of a module that was got for the query that the path is. -/
theorem registered_of_walkSingle {path : Path} {package : Option ModuleName} {children : List WalkItem}
    (h : ends (e.walkSingle path package) s = (.ok children, s')) :
    children = [] ∨ ∃ q r m s₀ s₁, e.tree.query? path package = some q ∧ r.AsksFor q ∧
      Recursed e r false s₀ (.ok (some m)) s₁ ∧ e.Registered m children := by
  unfold walkSingle at h
  obtain ⟨_, _, _, h⟩ := exists_of_ends_bind h
  split at h
  · cases h
    exact Or.inl rfl
  next bare kind hat =>
    obtain ⟨_, _, _, h⟩ := exists_of_ends_bind h
    obtain ⟨d, s₃, _, h⟩ := exists_of_ends_bind h
    cases d with
    | included reason =>
      obtain ⟨found, s₄, hfetch, h⟩ := exists_of_ends_bind h
      cases found with
      | none =>
        obtain ⟨_, _, _, h⟩ := exists_of_ends_bind h
        cases h
        exact Or.inl rfl
      | some m =>
        obtain ⟨result, s₅, hc, hends⟩ := e.fetched _ s₃
        obtain ⟨rfl, _⟩ := Prod.mk.inj (hends.symm.trans hfetch)
        have hq : e.tree.query? path package =
            some ⟨.ofPath e.tree.workDir path, .inPackage bare package, kind, true⟩ := by simp [FileTree.query?, hat]
        exact Or.inr ⟨_, _, m, s₃, s₅, hq, ⟨rfl, rfl, rfl⟩, hc, registered_of_registerIncluded h⟩
    | excluded reason =>
      obtain ⟨_, _, _, h⟩ := exists_of_ends_bind h
      cases h
      exact Or.inl rfl
    | undecided reason =>
      obtain ⟨_, _, _, h⟩ := exists_of_ends_bind h
      cases h
      exact Or.inl rfl

/-- What an item leaves weighs less than the item, if what is got for a path from the root is on such a path itself, with no
more below it than there is below the place that was asked for. -/
theorem lighter_of_got
    (hgot : ∀ (r : RecursionRequest) m s s', r.file.path.isAbsolute = true → Recursed e r false s (.ok (some m)) s' →
      .root ∈ m.file.place ∧ e.tree.below m.file.place ≤ e.tree.below r.file.place)
    (ht : e.tree.IsWellFormed) {item : WalkItem} {children : List WalkItem}
    (h : ends (e.expand item) s = (.ok children, s')) : e.tree.Lighter item children := by
  cases item with
  | single path package =>
    rcases registered_of_walkSingle h with rfl | ⟨q, r, m, s₀, s₁, hq, ⟨_, hof, _⟩, hc, hm⟩
    · exact .nil _ _
    · have hfile : r.file = .ofPath e.tree.workDir path := hof.trans (FileTree.file_of_query? hq)
      have habs : (ModuleFile.ofPath e.tree.workDir path).path.isAbsolute = true :=
        ModuleFile.isAbsolute_ofPath ht.isAbsolute (FileTree.text_ne_of_query? hq)
      obtain ⟨hroot, hbelow⟩ := hgot r m s₀ s₁ (hfile ▸ habs) hc
      refine hm.lighter ht (fun _ => ModuleFile.isAbsolute_identity ?_) (hfile ▸ hbelow)
      exact ModuleFile.isAbsolute_of_root_mem_place hroot
  | path path package =>
    have hleads : Leads e (fun _ => True) (e.walkPath path package) s _ := walkPath_leads path package trivial
    exact ⟨FileTree.isSingle_of_opened (hleads.2 _ _ h), nofun⟩
  | pattern text =>
    have hleads : Leads e (fun _ => True) (e.walkPattern text) s _ := walkPattern_leads text trivial
    exact ⟨FileTree.isSingle_of_matched (hleads.2 _ _ h), nofun⟩

/-- Over a builder that gives its records under the identity that is requested, what an item leaves weighs less than the
item: the directory of a package is the one that the path leads to, also where its record was built for another path. -/
theorem lighter_of_expand (hb : e.builder.IdentifiesAsked) (ht : e.tree.IsWellFormed) {item : WalkItem}
    {children : List WalkItem} (h : ends (e.expand item) s = (.ok children, s')) : e.tree.Lighter item children := by
  refine lighter_of_got (fun r m s s' hr hc => ?_) ht h
  have hplace : m.file.place = r.file.place := congrArg Identity.place (hc.identity_of_got hb)
  exact ⟨hplace ▸ ModuleFile.root_mem_place hr, Nat.le_of_eq (by rw [hplace])⟩

end Engine

/-- From any session, under any policy and plugins, over any builder that gives its records under the identity that is
requested, walking an item comes to its end, and the walk with a stack is the recursive traversal: both come to the same
value or error and leave the same session, with all that was built, noted and reported in the same order. -/
theorem walk_traverses {e : Engine σ} (hb : e.builder.IdentifiesAsked) (ht : e.tree.IsWellFormed) (item : WalkItem)
    (s : Session σ) :
    e.Walked [item] s (ends (e.walk item) s).1 (ends (e.walk item) s).2 ∧
      ∀ result s', e.Traversed [item] s result s' ↔ ends (e.walk item) s = (result, s') := by
  have hwalked : e.Walked [item] s (ends (e.walk item) s).1 (ends (e.walk item) s).2 :=
    Engine.walked_walk_of_lighter (I := fun _ => True)
      (fun _ _ _ _ _ h => ⟨trivial, Engine.lighter_of_expand hb ht h⟩) trivial item
  refine ⟨hwalked, fun result s' => ⟨fun h => ?_, fun h => ?_⟩⟩
  · obtain ⟨hresult, hs'⟩ := hwalked.unique h.walked
    exact Prod.ext hresult hs'
  · rw [h] at hwalked
    exact hwalked.traversed

/-- An engine over a package with a package in it that holds a module which cannot be built. -/
def Engine.brokenBelow : Engine (List BuildRequest) where
  policy := { options := {}, followTo := [], nofollowTo := [], bytecodeModules := [] }
  tree := (FileTree.empty ⟨"/w"⟩).add ["w", "pkg", "inner", "broken.py"] (.text "")
  builder := .ofTable [
    (⟨"pkg"⟩, { isPackage := true }),
    (⟨"pkg.inner"⟩, { isPackage := true }),
    (⟨"pkg.inner.broken"⟩, { error := some "broken" })]

/-- Where the outer package was built for the path of an init entry before, the traversal of its directory builds the inner
package and ends at the module. -/
theorem walk_traverses_brokenBelow :
    let e := Engine.brokenBelow
    let imported : RecursionRequest := ⟨⟨"pkg"⟩, ⟨⟨"/w/pkg/__init__.py"⟩⟩, .source, none, none, ""⟩
    ∃ err s', e.Traversed [.single ⟨"pkg"⟩ none] (ends (e.recurse imported false) (.fresh [])).2 (.error err) s' ∧
      s'.cache.modules.map (fun m => m.file.path.text) = ["/w/pkg/__init__.py", "/w/pkg/inner"] := by
  intro e imported
  let s := (ends (e.recurse imported false) (.fresh [])).2
  have hb : e.builder.IdentifiesAsked := fun _ _ _ ho => Builder.identity_of_ofTable ho
  have hempty : (FileTree.empty ⟨"/w"⟩).IsWellFormed := FileTree.isWellFormed_empty (by decide) (by decide)
  have hnames : ∀ name ∈ ["w", "pkg", "inner", "broken.py"], Path.IsStep name ∧ name ≠ ".." := by decide
  have ht : e.tree.IsWellFormed := hempty.add _ hnames
  have htraversed := (walk_traverses hb ht (.single ⟨"pkg"⟩ none) s).2
  have hfails : (ends (e.walk (.single ⟨"pkg"⟩ none)) s).1.isOk = false := by decide +kernel
  have hkept : (ends (e.walk (.single ⟨"pkg"⟩ none)) s).2.cache.modules.map (fun m => m.file.path.text) =
      ["/w/pkg/__init__.py", "/w/pkg/inner"] := by decide +kernel
  rcases h : ends (e.walk (.single ⟨"pkg"⟩ none)) s with ⟨err | _, s'⟩
  · rw [h] at hkept
    exact ⟨err, s', (htraversed _ _).2 h, hkept⟩
  · rw [h] at hfails
    cases hfails

end ImportClosure
