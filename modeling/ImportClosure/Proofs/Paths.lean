import ImportClosure.Proofs.Fields
import ImportClosure.Session

/-!
# Parents and places

The parent of a path lacks its last component (`Path.components_parent?`), so the components of a file are those of its
place, or those with the init entry behind them (`ModuleFile.components_path`). Decisions therefore depend on the place
of a file only, as long as the library does not look at the spelling of a path either (`Policy.decide_congr`).
-/

namespace ImportClosure

namespace Path

/-! ## Components from fields -/

/-- An absolute path is a slash with something behind it. -/
theorem isAbsolute_iff {p : Path} : p.isAbsolute = true ↔ ∃ s, p = ⟨"/" ++ s⟩ := by
  rw [isAbsolute, Text.startsWith, List.isPrefixOf_iff_prefix]
  constructor
  · rintro ⟨cs, hcs⟩
    refine ⟨String.ofList cs, ?_⟩
    rcases p with ⟨text⟩
    have ht : text = String.ofList ("/".toList ++ cs) := by rw [hcs, String.ofList_toList]
    rw [ht, String.ofList_append, String.ofList_toList]
  · rintro ⟨s, rfl⟩
    simp

/-- What begins with a slash is absolute. -/
theorem isAbsolute_root (s : String) : Path.isAbsolute ⟨"/" ++ s⟩ = true :=
  isAbsolute_iff.2 ⟨s, rfl⟩

/-- The first field of an absolute path is empty. -/
theorem fields_root (s : String) : Path.fields ⟨"/" ++ s⟩ = "" :: Text.fields '/' s := by
  simp [Path.fields, Text.fields, Text.split]

/-- The components of an absolute path. -/
theorem components_root (s : String) :
    Path.components ⟨"/" ++ s⟩ = .root :: (Text.fields '/' s).filterMap component? := by
  simp [components, isAbsolute_root, fields_root]

/-- The components of a path that begins with a dot. -/
theorem components_here {p : Path} {rest : List String} (ha : p.isAbsolute = false) (h : p.fields = "." :: rest) :
    p.components = .here :: rest.filterMap component? := by
  simp [components, ha, h]

/-- A path that begins with a dot has it as its first component. -/
theorem components_dot (s : String) :
    Path.components ⟨"./" ++ s⟩ = .here :: (Text.fields '/' s).filterMap component? := by
  have ha : Path.isAbsolute ⟨"./" ++ s⟩ = false := by simp [isAbsolute, Text.startsWith, List.isPrefixOf]
  have hf : Path.fields ⟨"./" ++ s⟩ = "." :: Text.fields '/' s := by simp [Path.fields, Text.fields, Text.split]
  exact components_here ha hf

/-- The components of any other relative path. -/
theorem components_relative {p : Path} (ha : p.isAbsolute = false) (h : ∀ rest, p.fields ≠ "." :: rest) :
    p.components = p.fields.filterMap component? := by
  unfold components
  rw [ha]
  split
  · cases ‹false = true›
  next h' => exact absurd h' (h _)
  · rfl

/-- A relative path has an empty first field only if it is empty. -/
theorem fields_tail_eq_nil {p : Path} {rest : List String} (ha : p.isAbsolute = false) (h : p.fields = "" :: rest) :
    rest = [] := by
  cases rest with
  | nil => rfl
  | cons g more =>
    have ht : p.text = "/" ++ Text.unfields '/' (g :: more) := by
      rw [← Text.unfields_fields '/' p.text, show Text.fields '/' p.text = "" :: g :: more from h]
      apply String.toList_inj.1
      simp [Text.unfields, Text.join]
    have habs : p.isAbsolute = true := isAbsolute_iff.2 ⟨_, by rw [← ht]⟩
    rw [ha] at habs
    cases habs

/-- Joining fields changes none of their steps. -/
theorem filterMap_fields_unfields {fs : List String} (h : ∀ f ∈ fs, '/' ∉ f.toList) :
    (Text.fields '/' (Text.unfields '/' fs)).filterMap component? = fs.filterMap component? := by
  cases fs with
  | nil => decide
  | cons f fs => rw [Text.fields_unfields (by simp) h]

/-! ## Parents -/

/-- An idle field is no step, every other field is one. -/
theorem component?_eq_none {f : String} : component? f = none ↔ isIdle f = true := by
  unfold component?
  split
  · simp [*]
  · split <;> simp [*]

/-- Dropping idle fields drops no step. -/
theorem filterMap_dropWhile (fs : List String) : (fs.dropWhile isIdle).filterMap component? = fs.filterMap component? := by
  induction fs with
  | nil => rfl
  | cons f fs ih =>
    by_cases hf : isIdle f = true
    · rw [List.dropWhile_cons_of_pos hf, ih, List.filterMap_cons_none (component?_eq_none.2 hf)]
    · rw [List.dropWhile_cons_of_neg hf]

/-- What is left of fields without their last step. -/
theorem dropStep_some {fs kept : List String} (h : dropStep fs = some kept) :
    kept <+: fs ∧ ∃ c, fs.filterMap component? = kept.filterMap component? ++ [c] := by
  unfold dropStep at h
  split at h
  · cases h
  next f rest hrest =>
    obtain rfl := Option.some.inj h
    have hf : isIdle f = false := by
      have := List.head?_dropWhile_not isIdle fs.reverse
      simpa [hrest] using this
    obtain ⟨c, hc⟩ : ∃ c, component? f = some c := by
      rw [← Option.isSome_iff_exists, ← Option.not_isNone, Bool.not_eq_true', ← Bool.not_eq_true, Option.isNone_iff_eq_none,
        component?_eq_none, hf]
      simp
    constructor
    · rw [← List.reverse_suffix, List.reverse_reverse]
      refine (List.dropWhile_suffix _).trans ((List.suffix_cons f rest).trans ?_)
      rw [← hrest]
      exact List.dropWhile_suffix _
    · refine ⟨c, ?_⟩
      have hrev : fs.reverse.filterMap component? = c :: rest.filterMap component? := by
        rw [← filterMap_dropWhile, hrest, List.filterMap_cons_some hc]
      rw [List.filterMap_reverse] at hrev
      rw [← List.reverse_reverse (fs.filterMap component?), hrev, List.filterMap_reverse, filterMap_dropWhile]
      simp

/-- Fields from which no step can be dropped have none. -/
theorem dropStep_none {fs : List String} (h : dropStep fs = none) : fs.filterMap component? = [] := by
  unfold dropStep at h
  split at h
  next hnil =>
    have hrev := filterMap_dropWhile fs.reverse
    rw [hnil, List.filterMap_reverse] at hrev
    exact List.reverse_eq_nil_iff.1 hrev.symm
  · cases h

/-- The fields of a path hold no slash. -/
theorem not_mem_of_mem_fields {p : Path} {fs : List String} (h : ∀ f ∈ fs, f ∈ p.fields) : ∀ f ∈ fs, '/' ∉ f.toList :=
  fun f hf => Text.not_mem_of_mem_fields (h f hf)

/-- Above an absolute path the last component is gone. -/
theorem components_parent?_root {p q : Path} (ha : p.isAbsolute = true) (h : p.parent? = some q) :
    q.components = p.components.dropLast := by
  obtain ⟨s, rfl⟩ := isAbsolute_iff.1 ha
  simp only [parent?, ha, fields_root, List.tail_cons, Option.map_eq_some_iff] at h
  obtain ⟨kept, hkept, rfl⟩ := h
  obtain ⟨hpre, c, hc⟩ := dropStep_some hkept
  have hslash : ∀ f ∈ kept, '/' ∉ f.toList := fun f hf => Text.not_mem_of_mem_fields (hpre.subset hf)
  rw [components_root, components_root, filterMap_fields_unfields hslash, hc]
  rw [← List.cons_append, List.dropLast_concat]

/-- Above a path that begins with a dot the last component is gone. -/
theorem components_parent?_here {p q : Path} {rest : List String} (ha : p.isAbsolute = false)
    (hrest : p.fields = "." :: rest) (h : p.parent? = some q) : q.components = p.components.dropLast := by
  have hslash : ∀ f ∈ rest, '/' ∉ f.toList :=
    not_mem_of_mem_fields fun f hf => hrest ▸ List.mem_cons_of_mem _ hf
  rw [components_here ha hrest]
  simp only [parent?, ha, hrest] at h
  split at h
  next hkept =>
    obtain rfl := Option.some.inj h
    obtain ⟨_, c, hc⟩ := dropStep_some hkept
    rw [hc]
    exact show Path.components ⟨"."⟩ = [.here] by decide
  next kept _ hkept =>
    obtain rfl := Option.some.inj h
    obtain ⟨hpre, c, hc⟩ := dropStep_some hkept
    rw [components_dot, filterMap_fields_unfields fun f hf => hslash f (hpre.subset hf), hc]
    rw [← List.cons_append, List.dropLast_concat]
  next hnone =>
    obtain rfl := Option.some.inj h
    rw [dropStep_none hnone]
    decide

/-- Leading fields of a path have their own steps, unless they begin with a dot or an empty field. -/
theorem components_unfields_of_prefix {p : Path} {kept : List String} (hdot : ∀ rest, p.fields ≠ "." :: rest)
    (hpre : kept <+: p.fields) (hroot : ∀ more, p.fields = "" :: more → kept = []) :
    Path.components ⟨Text.unfields '/' kept⟩ = kept.filterMap component? := by
  cases kept with
  | nil => decide
  | cons f more =>
    have hfields : Path.fields ⟨Text.unfields '/' (f :: more)⟩ = f :: more :=
      Text.fields_unfields (by simp) fun g hg => Text.not_mem_of_mem_fields (hpre.subset hg)
    obtain ⟨tail, htail⟩ := hpre
    rw [components_relative _ _, hfields]
    · rw [← Bool.not_eq_true, isAbsolute_iff]
      rintro ⟨s, hs⟩
      rw [hs, fields_root] at hfields
      obtain ⟨rfl, _⟩ := List.cons.inj hfields
      cases hroot _ htail.symm
    · intro rest hrest
      rw [hfields] at hrest
      obtain ⟨rfl, _⟩ := List.cons.inj hrest
      exact hdot _ htail.symm

/-- Above a relative path the last component is gone. -/
theorem components_parent?_relative {p q : Path} (ha : p.isAbsolute = false) (hdot : ∀ rest, p.fields ≠ "." :: rest)
    (h : p.parent? = some q) : q.components = p.components.dropLast := by
  obtain ⟨kept, hkept, rfl⟩ : ∃ kept, dropStep p.fields = some kept ∧ ⟨Text.unfields '/' kept⟩ = q := by
    unfold parent? at h
    rw [ha] at h
    split at h
    · cases ‹false = true›
    next hrest => exact absurd hrest (hdot _)
    · simpa using h
  obtain ⟨hpre, c, hc⟩ := dropStep_some hkept
  rw [components_relative ha hdot, hc, List.dropLast_concat]
  refine components_unfields_of_prefix hdot hpre fun more hmore => ?_
  -- a path with an empty first field is empty, and has no step to be dropped
  rw [hmore, fields_tail_eq_nil ha hmore] at hc
  simp [component?, isIdle] at hc

/-- The parent of a path has all components but the last. -/
theorem components_parent? {p q : Path} (h : p.parent? = some q) : q.components = p.components.dropLast := by
  cases ha : p.isAbsolute with
  | true => exact components_parent?_root ha h
  | false =>
    by_cases hdot : ∃ rest, p.fields = "." :: rest
    · obtain ⟨rest, hrest⟩ := hdot
      exact components_parent?_here ha hrest h
    · exact components_parent?_relative ha (fun rest hrest => hdot ⟨rest, hrest⟩) h

/-- A path whose last step is a name has a parent. -/
theorem exists_parent? {p : Path} {name : String} (h : p.fileName = some name) : ∃ q, p.parent? = some q := by
  have hlast : p.components.getLast? = some (.name name) := by
    unfold fileName at h
    split at h
    next s hs =>
      obtain rfl := Option.some.inj h
      exact hs
    · cases h
  cases ha : p.isAbsolute with
  | true =>
    obtain ⟨s, rfl⟩ := isAbsolute_iff.1 ha
    cases hd : dropStep (Text.fields '/' s) with
    | none => simp [components_root, dropStep_none hd] at hlast
    | some kept => exact ⟨_, by simp [parent?, ha, fields_root, hd]; rfl⟩
  | false =>
    unfold parent?
    rw [ha]
    split
    · cases ‹false = true›
    next hrest =>
      split
      · exact ⟨_, rfl⟩
      · exact ⟨_, rfl⟩
      · exact ⟨_, rfl⟩
    next hdot =>
      cases hd : dropStep p.fields with
      | none =>
        rw [components_relative ha hdot, dropStep_none hd] at hlast
        cases hlast
      | some kept => exact ⟨_, rfl⟩

end Path

/-! ## Places -/

namespace ModuleFile

/-- The init entry is the last component of a file that is one. -/
theorem getLast?_of_isInitEntry {f : ModuleFile} (h : f.isInitEntry = true) :
    f.path.components.getLast? = some (.name initEntry) := by
  simp only [isInitEntry, beq_iff_eq] at h
  unfold Path.fileName at h
  split at h
  next s hs =>
    obtain rfl := Option.some.inj h
    exact hs
  · cases h

/-- The components of a file are those of its place, with an init entry behind them or without. -/
theorem components_path (f : ModuleFile) :
    f.path.components = if f.isInitEntry then f.place ++ [.name initEntry] else f.place := by
  split
  next h =>
    have hname : f.path.fileName = some initEntry := by simpa [isInitEntry] using h
    obtain ⟨q, hq⟩ := Path.exists_parent? hname
    rw [place, identity, h, if_pos rfl, hq, Option.getD_some, Path.components_parent? hq]
    obtain ⟨steps, hsteps⟩ := List.getLast?_eq_some_iff.1 (getLast?_of_isInitEntry h)
    rw [hsteps, List.dropLast_concat]
  next h => rw [place, identity, if_neg h]

end ModuleFile

/-- What is library code depends on the place of a file, and not on its spelling. -/
def Library.IgnoresSpelling (l : Library) : Prop :=
  ∀ f g : ModuleFile, f.place = g.place → l.holds f = l.holds g

/-- Directories hold a file because of its place, if none of them is an init entry itself. -/
theorem LibraryRoots.ignoresSpelling {l : LibraryRoots} (hl : ∀ root ∈ l.roots, root.fileName ≠ some initEntry) :
    l.library.IgnoresSpelling := by
  intro f g h
  have hroot : ∀ root ∈ l.roots, ∀ f : ModuleFile, f.path.startsWith root = true ↔ root.components <+: f.place := by
    intro root hmem f
    rw [Path.startsWith, List.isPrefixOf_iff_prefix, f.components_path]
    split
    · rw [List.prefix_concat_iff]
      refine ⟨fun hr => hr.resolve_left fun hr => hl root hmem ?_, Or.inr⟩
      simp [Path.fileName, hr]
    · rfl
  rw [Bool.eq_iff_iff, library, List.any_eq_true, List.any_eq_true]
  exact exists_congr fun root => and_congr_right fun hmem => by rw [hroot root hmem, hroot root hmem, h]

/-- Queries with one key are decided alike, if the plugins decide alike about both. -/
theorem Policy.decide_eq_of_key {p : Policy} (hl : p.library.IgnoresSpelling)
    {q q' : Query} (h : q.key = q'.key) (hp : p.pluginRule q = p.pluginRule q') : p.decide q = p.decide q' := by
  obtain ⟨file, name, kind, explicit⟩ := q
  obtain ⟨file', name', kind', explicit'⟩ := q'
  simp only [Query.key, QueryKey.mk.injEq] at h
  obtain ⟨rfl, hplace, rfl, rfl⟩ := h
  simp only [decide, rules, mainRule, extensionRule, profileRule, neverFollowRule, alwaysFollowRule, explicitRule,
    stdlibRule, followAllRule, hp, hl file file' hplace, List.findSome?_cons, List.findSome?_nil]

/-- Decisions depend on the key of a query only, if the plugins do not look at the file. -/
theorem Policy.decide_congr {p : Policy} (hl : p.library.IgnoresSpelling)
    (hp : ∀ f g name kind, p.plugins.encounter f name kind = p.plugins.encounter g name kind) {q q' : Query}
    (h : q.key = q'.key) : p.decide q = p.decide q' := by
  refine decide_eq_of_key hl h ?_
  rw [pluginRule, pluginRule, hp q.file q'.file, show q.name = q'.name from congrArg QueryKey.name h,
    show q.kind = q'.kind from congrArg QueryKey.kind h]

end ImportClosure
