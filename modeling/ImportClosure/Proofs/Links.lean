import ImportClosure.Proofs.Operations
import ImportClosure.Proofs.Registry

/-!
# Following the imports of a module one by one

The imports of a module are a list of links, those of its source before those that the plugins declare for it
(`Engine.links`). Consuming the module with success is following the links in this order (`Engine.keeps_of_consider`), and
`LinkFollowed` lists what following one of them comes to.
-/

namespace ImportClosure

variable {σ : Type}

open Step

/-- An import of a module: what is imported, how it came about, and where. -/
structure Link where
  name : ModuleName
  file : ModuleFile
  kind : ModuleKind
  tag : UsageTag
  sourceRef : SourceRef

namespace Link

/-- What following a link asks about. -/
def query (l : Link) : Query :=
  ⟨l.file, l.name, l.kind, false⟩

/-- What following a link asks for once the policy includes it. -/
def request (l : Link) (m : ModuleRecord) (reason : Reason) : RecursionRequest :=
  ⟨l.name, l.file, l.kind, some m.name, some l.sourceRef, reason.text⟩

/-- The request of a link asks for what the link leads to. -/
theorem asksFor_request (l : Link) (m : ModuleRecord) (reason : Reason) : (l.request m reason).AsksFor l.query :=
  ⟨rfl, rfl, rfl⟩

end Link

/-- The link of an import edge that has a file. -/
def ImportEdge.link? (edge : ImportEdge) : Option Link :=
  edge.file.map fun file => ⟨edge.name, file, edge.kind, .statement, edge.sourceRef⟩

/-- The link of an import that a plugin declares for a module: it stands at the start of the module. -/
def ImplicitImport.link? (m : ModuleRecord) (i : ImplicitImport) : Option Link :=
  i.file.map fun file => ⟨i.name, file, i.kind, .plugin, m.sourceRef⟩

namespace Engine

/-- The links of a module with these edges, in the order in which they are followed. -/
def links (e : Engine σ) (m : ModuleRecord) (edges : List ImportEdge) : List Link :=
  edges.filterMap ImportEdge.link? ++
    match e.policy.plugins.implicitImports m with
    | .ok imports => imports.filterMap (ImplicitImport.link? m)
    | .error _ => []

/-- Follows a link. -/
def followLink (e : Engine σ) (m : ModuleRecord) (l : Link) : Step σ Unit :=
  e.followEdge m l.name l.file l.kind l.sourceRef l.tag

end Engine

/-- What following a link comes to if it succeeds. -/
inductive LinkFollowed (e : Engine σ) (m : ModuleRecord) (l : Link) (s : Session σ) : Session σ → Prop where
  /-- The policy does not include the module. -/
  | spared {d : Decision} {s' : Session σ} (hd : e.Stands l.query d) (hno : d.isIncluded = false)
      (hq : Move e (.decided l.query) s s') : LinkFollowed e m l s s'
  /-- The builder passes the module over. -/
  | passedOver {reason : Reason} {s₁ s' : Session σ} (hd : e.Stands l.query (.included reason))
      (hq : Move e (.decided l.query) s s₁) (hr : Recursed e (l.request m reason) true s₁ (.ok none) s') :
      LinkFollowed e m l s s'
  /-- The module is got, and the use is noted. -/
  | used {reason : Reason} {used : ModuleRecord} {s₁ s₂ : Session σ} (hd : e.Stands l.query (.included reason))
      (hq : Move e (.decided l.query) s s₁) (hr : Recursed e (l.request m reason) true s₁ (.ok (some used)) s₂) :
      LinkFollowed e m l s
        { s₂ with registry := s₂.registry.addUse used m l.tag reason.text (some l.sourceRef) }

namespace Engine

variable {e : Engine σ} {m : ModuleRecord} {s s' : Session σ}

/-- Following a link comes to what `LinkFollowed` lists. -/
theorem linkFollowed_of_ends {l : Link} (hs : e.Remembers s) (h : ends (e.followLink m l) s = (.ok (), s')) :
    LinkFollowed e m l s s' := by
  unfold followLink followEdge at h
  obtain ⟨d, s₁, hdecide, h⟩ := exists_of_ends_bind h
  have hd : e.Stands l.query d := stands_of_decide hs hdecide
  have hq : Move e (.decided l.query) s s₁ := (congrArg Prod.snd hdecide).symm
  cases d with
  | included reason =>
    obtain ⟨found, s₂, hrecurse, h⟩ := exists_of_ends_bind h
    obtain ⟨result, s₃, hr, hc⟩ := e.recursed (l.request m reason) true s₁
    obtain ⟨rfl, rfl⟩ := Prod.mk.inj (hr.symm.trans hrecurse)
    cases found with
    | none =>
      cases h
      exact .passedOver hd hq hc
    | some used =>
      cases h
      exact .used hd hq hc
  | excluded reason =>
    cases h
    exact .spared hd rfl hq
  | undecided reason =>
    cases h
    exact .spared hd rfl hq

/-! ## Consuming a module -/

section Consider

variable {P : List Link → Session σ → Prop} {before : List Link}

/-- What following its links keeps, considering an edge does. -/
theorem keeps_of_considerEdge (hremark : ∀ before s s', Move e .remarked s s' → P before s → P before s')
    (hlink : ∀ before l s s', ends (e.followLink m l) s = (.ok (), s') → P before s → P (before ++ [l]) s')
    {edge : ImportEdge} (h : ends (e.considerEdge m edge) s = (.ok (), s')) (hs : P before s) :
    P (before ++ edge.link?.toList) s' := by
  obtain ⟨_, s₁, hmissing, h⟩ := exists_of_ends_bind h
  have hwarn : Move e .remarked s (s.warnUnresolved m.name edge) := by
    unfold Session.warnUnresolved
    split <;> exact ⟨_, _, _, rfl⟩
  have hs₁ : P before s₁ := by
    unfold reportMissing at hmissing
    split at hmissing
    · cases hmissing
      exact hremark before _ _ hwarn hs
    · cases hmissing
      exact hs
  unfold ImportEdge.link?
  cases hfile : edge.file with
  | none =>
    rw [hfile] at h
    cases h
    simpa using hs₁
  | some file =>
    rw [hfile] at h
    exact hlink before ⟨edge.name, file, edge.kind, .statement, edge.sourceRef⟩ s₁ s' (ends_of_ends_adapt h) hs₁

/-- What following its links keeps, considering a declared import does. -/
theorem keeps_of_considerImplicit
    (hlink : ∀ before l s s', ends (e.followLink m l) s = (.ok (), s') → P before s → P (before ++ [l]) s')
    {i : ImplicitImport} (h : ends (e.considerImplicit m i) s = (.ok (), s')) (hs : P before s) :
    P (before ++ (i.link? m).toList) s' := by
  unfold considerImplicit at h
  unfold ImplicitImport.link?
  cases hfile : i.file with
  | none =>
    rw [hfile] at h
    cases h
    simpa using hs
  | some file =>
    rw [hfile] at h
    exact hlink before ⟨i.name, file, i.kind, .plugin, m.sourceRef⟩ s s' (ends_of_ends_adapt h) hs

/-- What warnings and links keep, as one link after the other is followed, holds behind all links of a module that was
consumed with success. -/
theorem keeps_of_consider (hremark : ∀ before s s', Move e .remarked s s' → P before s → P before s')
    (hlink : ∀ before l s s', ends (e.followLink m l) s = (.ok (), s') → P before s → P (before ++ [l]) s')
    {edges : List ImportEdge} (h : ends (e.consider m edges) s = (.ok (), s')) (hs : P [] s) :
    P (e.links m edges) s' := by
  have happend : ∀ {α : Type} (f : α → Option Link) (xs : List α) (x : α),
      (xs ++ [x]).filterMap f = xs.filterMap f ++ (f x).toList := by
    intro α f xs x
    cases hx : f x <;> simp [hx]
  obtain ⟨_, s₁, hedges, h⟩ := exists_of_ends_bind h
  obtain ⟨imports, s₂, himports, h⟩ := exists_of_ends_bind h
  have hs₁ : P (([] ++ edges).filterMap ImportEdge.link?) s₁ := by
    refine keeps_of_ends_forM (I := fun xs s => P (xs.filterMap ImportEdge.link?) s) ?_ hedges hs
    intro xs edge s s' _ hP hedge
    rw [happend]
    exact keeps_of_considerEdge hremark hlink hedge hP
  unfold implicitImports at himports
  unfold links
  cases hi : e.policy.plugins.implicitImports m with
  | error what =>
    rw [hi] at himports
    cases himports
  | ok imports' =>
    rw [hi] at himports
    cases himports
    have hs₂ : P (edges.filterMap ImportEdge.link? ++ [].filterMap (ImplicitImport.link? m)) s₁ := by simpa using hs₁
    refine keeps_of_ends_forM
      (I := fun xs s => P (edges.filterMap ImportEdge.link? ++ xs.filterMap (ImplicitImport.link? m)) s) ?_ h hs₂
    intro xs i s s' _ hP himplicit
    rw [happend, ← List.append_assoc]
    exact keeps_of_considerImplicit hlink himplicit hP

end Consider

end Engine

end ImportClosure
