import ImportClosure.Proofs.Plain

/-!
# Canonical paths

A path is canonical if the path from the root of it is the path itself (`Path.IsCanonical`). Every path from the root is
(`Path.isCanonical_absolute`), with one slash at the root or with two, and so is a name in a canonical directory
(`Path.IsCanonical.child`): what a directory lists goes by the same text whether it is made absolute or not. The parent of
a name in a directory is the directory again (`Path.parent?_child`), and an absolute path that ends with a name, written
plainly, is that name in a directory (`Path.exists_bare_eq`).
-/

namespace ImportClosure

namespace Path

variable {w p : Path} {name : String}

/-- A path from the root that stays as it is when it is made absolute. -/
def IsCanonical (p w : Path) : Prop :=
  p.isAbsolute = true ∧ p.absolute w = p

/-! ## What is written behind a path -/

theorem endsWith_append_slash (s : String) : Text.endsWith (s ++ "/") "/" = true := by
  simp [Text.endsWith, List.isSuffixOf_iff_suffix]

/-- Where a path begins does not depend on what is written behind it, unless that makes two slashes out of one. -/
theorem rootText_append (h : p.isAbsolute = true) {s : String}
    (hs : Text.endsWith p.text "/" = true → Path.isAbsolute ⟨s⟩ = false) : Path.rootText ⟨p.text ++ s⟩ = p.rootText := by
  obtain ⟨r, rfl⟩ := isAbsolute_iff.1 h
  have hs' : ['/'] <:+ '/' :: r.toList → ¬ ['/'] <+: s.toList := by
    intro hend
    rw [← List.isPrefixOf_iff_prefix, Bool.not_eq_true]
    exact hs (by simpa [Text.endsWith] using hend)
  unfold rootText Text.startsWith
  simp only [String.toList_append]
  generalize r.toList = cs at hs' ⊢
  rcases cs with _ | ⟨a, _ | ⟨b, cs⟩⟩
  · have hslash := hs' (by simp)
    simp [List.isPrefixOf, hslash]
  · by_cases ha : a = '/'
    · subst ha
      have hslash := hs' (by simp)
      simp [List.isPrefixOf, hslash]
    · simp [List.isPrefixOf, Ne.symm ha]
  · simp [List.isPrefixOf]

/-- How a name in a directory is written. -/
theorem child_eq_append_of_ne (hp : p.text ≠ "") (hn : IsStep name) :
    p.child name = ⟨p.text ++ if Text.endsWith p.text "/" then name else "/" ++ name⟩ := by
  have hne : (p.text == "") = false := by simpa using hp
  unfold child join
  rw [hn.isAbsolute_eq]
  simp only [Bool.false_eq_true, if_false, hne, Bool.false_or]
  split
  · rfl
  · rw [String.append_assoc]

/-- A child of a directory is written behind it, with a slash between them unless there is one. -/
theorem child_eq_append (h : p.isAbsolute = true) (hn : IsStep name) :
    p.child name = ⟨p.text ++ if Text.endsWith p.text "/" then name else "/" ++ name⟩ :=
  child_eq_append_of_ne (ModuleFile.text_ne_nil_of_isAbsolute h) hn

/-- A child of a directory begins at the same root. -/
theorem rootText_child_eq (h : p.isAbsolute = true) (hn : IsStep name) : (p.child name).rootText = p.rootText := by
  rw [child_eq_append h hn]
  refine rootText_append h fun hend => ?_
  rw [if_pos hend]
  exact hn.isAbsolute_eq

/-- A name in a directory does not end with a slash. -/
theorem endsWith_child_of_ne (hp : p.text ≠ "") (hn : IsStep name) : Text.endsWith (p.child name).text "/" = false := by
  have hend : ∀ s, Text.endsWith (s ++ name) "/" = false := by
    intro s
    rw [← Bool.not_eq_true, Text.endsWith, List.isSuffixOf_iff_suffix, String.toList_append]
    rintro ⟨front, hfront⟩
    have hne : name.toList ≠ [] := by
      intro hnil
      obtain rfl : name = "" := String.toList_inj.1 hnil
      exact absurd hn.2 (by decide)
    have hlast := congrArg List.getLast? hfront
    rw [List.getLast?_append, List.getLast?_append, List.getLast?_eq_some_getLast hne] at hlast
    exact hn.1 (List.mem_of_getLast? ((List.getLast?_eq_some_getLast hne).trans hlast.symm))
  rw [child_eq_append_of_ne hp hn]
  split
  · exact hend p.text
  · rw [← String.append_assoc]
    exact hend _

/-- The path of a child does not end with a slash. -/
theorem endsWith_child (h : p.isAbsolute = true) (hn : IsStep name) : Text.endsWith (p.child name).text "/" = false :=
  endsWith_child_of_ne (ModuleFile.text_ne_nil_of_isAbsolute h) hn

/-- A slash behind a directory is the one in front of the names in it. -/
theorem child_append_slash (h : p.isAbsolute = true) (hend : Text.endsWith p.text "/" = false) (hn : IsStep name) :
    Path.child ⟨p.text ++ "/"⟩ name = p.child name := by
  rw [child_eq_append (isAbsolute_append h "/") hn, child_eq_append h hn, if_pos (endsWith_append_slash _),
    if_neg (by simp [hend]), String.append_assoc]

/-! ## Names in canonical directories -/

/-- The steps of a path, written below its root. -/
def bare (p : Path) : Path :=
  ⟨below p.rootText p.components.tail⟩

/-- The path from the root of an absolute path is its steps, with the slash that stands behind them. -/
theorem absolute_eq_bare (h : p.isAbsolute = true) : p.absolute w =
    if Text.endsWith p.text "/" && !Text.endsWith p.bare.text "/" then ⟨p.bare.text ++ "/"⟩ else p.bare := by
  obtain ⟨fs, _, hfilter, hroot⟩ := p.exists_fields
  have hsteps : (p.components.filter fun step => step != .root && step != .here) = p.components.tail := by
    rw [hfilter, hroot h, List.tail_cons]
  have hne : (p.text == "") = false := by simpa using ModuleFile.text_ne_nil_of_isAbsolute h
  simp only [absolute, hne, Bool.false_eq_true, if_false, h, if_true, hsteps, bare]
  rfl

/-- Without the slash at its end a path is absolute and has the same components. -/
theorem bare_spec (h : p.isAbsolute = true) : p.bare.isAbsolute = true ∧ p.bare.components = p.components := by
  obtain ⟨fs, hfs, _, hroot⟩ := p.exists_fields
  have hstart : Path.isAbsolute ⟨p.rootText⟩ = true ∧ Path.components ⟨p.rootText⟩ = [.root] := by
    unfold rootText
    split <;> decide
  have hsteps : fs.filterMap component? = p.components.tail := by rw [hroot h, List.tail_cons]
  obtain ⟨habs, hcomp⟩ := components_foldl_join hfs hsteps hstart.1
  refine ⟨habs, hcomp.trans ?_⟩
  rw [hstart.2, hroot h]
  rfl

/-- A canonical path is its steps, or these with a slash behind them. -/
theorem IsCanonical.eq_bare_or (h : p.IsCanonical w) :
    p = p.bare ∨ Text.endsWith p.bare.text "/" = false ∧ p = ⟨p.bare.text ++ "/"⟩ := by
  have heq := h.2
  rw [absolute_eq_bare h.1] at heq
  split at heq
  next hend =>
    simp only [Bool.and_eq_true, Bool.not_eq_true'] at hend
    exact Or.inr ⟨hend.2, heq.symm⟩
  next => exact Or.inl heq.symm

/-- The steps of a name in a directory are those of the directory with the name behind them. -/
theorem bare_child (h : p.isAbsolute = true) (hn : IsStep name) : (p.child name).bare = p.bare.child name := by
  obtain ⟨c, hc, hcomp⟩ := components_child_of_isStep h hn
  obtain ⟨fs, _, _, hroot⟩ := p.exists_fields
  have htail : (p.child name).components.tail = p.components.tail ++ [c] := by
    rw [hcomp, hroot h]
    rfl
  rw [bare, bare, htail, rootText_child_eq h hn, below, List.foldl_append, List.foldl_cons, text_of_component? hc]
  rfl

/-- A slash behind a canonical path that does not end with one leaves it canonical. -/
theorem IsCanonical.append_slash (h : p.IsCanonical w) (hend : Text.endsWith p.text "/" = false) :
    IsCanonical ⟨p.text ++ "/"⟩ w := by
  have hbare : p = p.bare := h.eq_bare_or.elim id fun hslash => by
    rw [hslash.2, endsWith_append_slash] at hend
    cases hend
  have hroot : Path.rootText ⟨p.text ++ "/"⟩ = p.rootText := rootText_append h.1 fun hend' => by
    rw [hend] at hend'
    cases hend'
  have hbare' : Path.bare ⟨p.text ++ "/"⟩ = p := by
    rw [bare, components_append_slash h.1, hroot]
    exact hbare.symm
  refine ⟨isAbsolute_append h.1 "/", ?_⟩
  rw [absolute_eq_bare (isAbsolute_append h.1 "/"), hbare', endsWith_append_slash, hend]
  rfl

/-- A name in a canonical directory is written as in the bare one. -/
theorem IsCanonical.child_bare (h : p.IsCanonical w) (hn : IsStep name) : p.bare.child name = p.child name := by
  rcases h.eq_bare_or with hp | ⟨hend, hp⟩
  · rw [← hp]
  · rw [← child_append_slash (bare_spec h.1).1 hend hn, ← hp]

/-- A name in a canonical directory is canonical. -/
theorem IsCanonical.child (h : p.IsCanonical w) (hn : IsStep name) : IsCanonical (p.child name) w := by
  refine ⟨isAbsolute_child h.1 name, ?_⟩
  rw [absolute_eq_bare (isAbsolute_child h.1 name), endsWith_child h.1 hn, bare_child h.1 hn, h.child_bare hn]
  rfl

/-! ## Paths from the root -/

/-- Steps that are written below a canonical path make a canonical path. -/
theorem isCanonical_below {cs : List Component} (hcs : ∀ c ∈ cs, IsStep c.text) (hp : p.IsCanonical w) :
    IsCanonical ⟨below p.text cs⟩ w := by
  induction cs generalizing p with
  | nil => exact hp
  | cons c cs ih => exact ih (fun d hd => hcs d (List.mem_cons_of_mem c hd)) (hp.child (hcs c List.mem_cons_self))

/-- Steps that are written below a path come behind those of the path. -/
theorem steps_below {cs : List Component} (hcs : ∀ c ∈ cs, IsStep c.text) (h : p.isAbsolute = true) :
    Path.steps ⟨below p.text cs⟩ = p.steps ++ cs.map Component.text := by
  induction cs generalizing p with
  | nil => simp [below]
  | cons c cs ih =>
    have hc := hcs c List.mem_cons_self
    have hrest := ih (fun d hd => hcs d (List.mem_cons_of_mem c hd)) (isAbsolute_child h c.text)
    rw [steps_child h hc, List.append_assoc] at hrest
    exact hrest

/-- The root is canonical. -/
theorem isCanonical_root : IsCanonical ⟨"/"⟩ w := by
  refine ⟨by decide, ?_⟩
  rw [absolute_eq_bare (by decide)]
  decide

/-- A plain path is its steps, with a slash behind them if it ends with one. -/
theorem IsPlain.fields_eq_append (hp : p.IsPlain) (h : p.isAbsolute = true) :
    p.fields = "" :: (p.steps ++ if Text.endsWith p.text "/" then [""] else []) := by
  have hfields := hp.fields_eq h
  by_cases hend : Text.endsWith p.text "/" = true
  · have hlast := (endsWith_iff_of_isAbsolute h).1 hend
    rw [if_pos hlast] at hfields
    obtain ⟨front, hfront⟩ := List.getLast?_eq_some_iff.1 hlast
    rw [hfront, List.dropLast_concat] at hfields
    rw [if_pos hend, hfront, hfields]
    rfl
  · rw [if_neg fun hlast => hend ((endsWith_iff_of_isAbsolute h).2 hlast)] at hfields
    rw [if_neg hend, hfields, List.append_nil]

/-- What is written plainly from the root is canonical. -/
theorem IsPlain.isCanonical (hp : p.IsPlain) (h : p.isAbsolute = true) : p.IsCanonical w := by
  have hcs : ∀ c ∈ p.components.tail, IsStep c.text := fun c hc => isStep_of_mem_steps h (List.mem_map_of_mem hc)
  have hfields := hp.fields_eq_append h
  have hpath : ∀ q : Path, p.fields = q.fields → p = q := by
    intro q hq
    have htext := congrArg (Text.unfields '/') hq
    rw [fields, fields, Text.unfields_fields, Text.unfields_fields] at htext
    exact congrArg Path.mk htext
  by_cases hnil : p.components.tail = []
  · have hroot : p = ⟨"/"⟩ := hpath _ <| by
      obtain ⟨fs, hne, hfs⟩ := exists_fields_of_isAbsolute h
      rw [steps, hnil, List.map_nil, List.nil_append] at hfields
      rw [hfields, List.cons.injEq] at hfs
      split at hfs
      next hend => rw [hfields, if_pos hend]; decide
      next => exact absurd hfs.2.symm hne
    rw [hroot]
    exact isCanonical_root
  · obtain ⟨front, c, hconcat⟩ : ∃ front c, p.components.tail = front ++ [c] :=
      ⟨_, _, (List.dropLast_concat_getLast hnil).symm⟩
    have hfront : ∀ c ∈ front, IsStep c.text := fun d hd => hcs d (hconcat ▸ List.mem_append_left _ hd)
    have hc : IsStep c.text := hcs c (hconcat ▸ List.mem_concat_self)
    obtain ⟨dir, hplain, habs, hdir, hsteps⟩ : ∃ dir : Path, dir.IsPlain ∧ dir.isAbsolute = true ∧ dir.IsCanonical w ∧
        dir.steps ++ [c.text] = p.steps := by
      have hbelow := isPlain_below hfront (p := ⟨"/"⟩) (by decide) (by decide)
      refine ⟨_, hbelow.1, hbelow.2, isCanonical_below hfront isCanonical_root, ?_⟩
      have hsteps := steps_below hfront (p := ⟨"/"⟩) (by decide)
      have hsplit : p.steps = front.map Component.text ++ [c.text] := by
        rw [steps, hconcat, List.map_append, List.map_singleton]
      rw [hsteps, hsplit, show Path.steps ⟨"/"⟩ = [] by decide, List.nil_append]
    have hchild : (dir.child c.text).fields = "" :: p.steps := by rw [hplain.fields_child habs hc.1, hsteps]
    have hend := endsWith_child habs hc
    split at hfields
    · have hslash : p = ⟨(dir.child c.text).text ++ "/"⟩ := hpath _ <| by
        have hf := Text.fields_append (show "/".toList = ['/'] from rfl) (dir.child c.text).text ""
        rw [String.append_empty] at hf
        rw [hfields, fields, hf, ← fields, hchild]
        rfl
      rw [hslash]
      exact (hdir.child hc).append_slash hend
    · have heq : p = dir.child c.text := hpath _ (by rw [hfields, hchild, List.append_nil])
      rw [heq]
      exact hdir.child hc

/-- The root of a path is canonical. -/
theorem isCanonical_rootText (p : Path) : IsCanonical ⟨p.rootText⟩ w := by
  unfold rootText
  split
  · exact ⟨by decide, by rw [absolute_eq_bare (by decide)]; decide⟩
  · exact ⟨by decide, by rw [absolute_eq_bare (by decide)]; decide⟩

/-- The path from the root is canonical. -/
theorem isCanonical_absolute (hw : w.IsCanonical w) (hp : p.text ≠ "") : IsCanonical (p.absolute w) w := by
  have hsteps : ∀ c ∈ p.components.filter (fun step => step != .root && step != .here), IsStep c.text := by
    intro c hc
    obtain ⟨hmem, hne⟩ := List.mem_filter.1 hc
    simp only [Bool.and_eq_true, bne_iff_ne] at hne
    exact isStep_of_mem_components hmem hne.1 hne.2
  have hstart : ∃ start : Path, (if p.isAbsolute then p.rootText else w.text) = start.text ∧ start.IsCanonical w := by
    cases p.isAbsolute with
    | true => exact ⟨⟨p.rootText⟩, rfl, isCanonical_rootText p⟩
    | false => exact ⟨w, rfl, hw⟩
  obtain ⟨start, hstart, hcanonical⟩ := hstart
  have hbelow := isCanonical_below hsteps hcanonical
  simp only [absolute, beq_iff_eq, hp, if_false, hstart]
  split
  next hend =>
    simp only [Bool.and_eq_true, Bool.not_eq_true'] at hend
    exact hbelow.append_slash hend.2
  next => exact hbelow

/-- The steps that are written below the start of a path are those of its fields. -/
theorem filter_components (p : Path) :
    (p.components.filter fun step => step != .root && step != .here) = p.fields.filterMap component? := by
  cases ha : p.isAbsolute with
  | true =>
    obtain ⟨s, rfl⟩ := isAbsolute_iff.1 ha
    rw [components_root, fields_root, List.filterMap_cons_none (by decide)]
    exact filter_filterMap _
  | false =>
    by_cases hdot : ∃ rest, p.fields = "." :: rest
    · obtain ⟨rest, hrest⟩ := hdot
      rw [components_here ha hrest, hrest, List.filterMap_cons_none (by decide)]
      exact filter_filterMap _
    · rw [components_relative ha fun rest hrest => hdot ⟨rest, hrest⟩]
      exact filter_filterMap _

/-- The components of a child are those of the directory and its own. -/
theorem filterMap_fields_child (hp : p.text ≠ "") (hn : IsStep name) :
    (p.child name).fields.filterMap component? = p.fields.filterMap component? ++ [name].filterMap component? := by
  rw [fields, child_eq_append_of_ne hp hn, fields, ← Text.fields_of_not_mem hn.1]
  split
  next hend =>
    refine filterMap_fields_append p.text name ?_
    rw [Text.endsWith, List.isSuffixOf_iff_suffix] at hend ⊢
    exact hend.trans (by simp)
  next =>
    rw [← String.append_assoc, Text.fields_append rfl, List.filterMap_append]

/-- A name in a directory begins where the directory does. -/
theorem isAbsolute_child_eq (hp : p.text ≠ "") (hn : IsStep name) : (p.child name).isAbsolute = p.isAbsolute := by
  cases ha : p.isAbsolute with
  | true => exact isAbsolute_child ha name
  | false =>
    obtain ⟨a, cs, hcs⟩ := List.exists_cons_of_ne_nil fun hnil => hp (String.toList_inj.1 hnil)
    rw [isAbsolute, Text.startsWith, hcs] at ha
    rw [child_eq_append_of_ne hp hn, isAbsolute, Text.startsWith, String.toList_append, hcs]
    exact ha

/-- The path from the root of a name in a directory is the name in the path from the root of the directory. -/
theorem absolute_child (hw : w.isAbsolute = true) (hp : p.text ≠ "") (hn : IsStep name) :
    (p.child name).absolute w = (p.absolute w).child name := by
  obtain ⟨c, hc, hname⟩ := hn.exists_component
  have hne : (p.child name).text ≠ "" := by
    rw [child_eq_append_of_ne hp hn]
    intro hnil
    have hboth := congrArg String.toList hnil
    rw [String.toList_append] at hboth
    exact hp (String.toList_inj.1 (List.append_eq_nil_iff.1 hboth).1)
  have hstart : (if (p.child name).isAbsolute then (p.child name).rootText else w.text) =
      if p.isAbsolute then p.rootText else w.text := by
    rw [isAbsolute_child_eq hp hn]
    split
    next ha => exact rootText_child_eq ha hn
    next => rfl
  have hsteps : ((p.child name).components.filter fun step => step != .root && step != .here) =
      (p.components.filter fun step => step != .root && step != .here) ++ [c] := by
    rw [filter_components, filterMap_fields_child hp hn, filter_components]
    simp [hc]
  have habs : Path.isAbsolute ⟨if p.isAbsolute then p.rootText else w.text⟩ = true := by
    split
    · exact (isCanonical_rootText (w := w) p).1
    · exact hw
  obtain ⟨fs, hfs, hfilter, _⟩ := p.exists_fields
  have hbelow := (components_foldl_join hfs hfilter.symm habs).1
  simp only [absolute, beq_iff_eq, hne, hp, if_false, hstart, hsteps, endsWith_child_of_ne hp hn, Bool.false_and,
    Bool.false_eq_true]
  rw [below, List.foldl_append, List.foldl_cons, List.foldl_nil, hname, ← below]
  generalize below (if p.isAbsolute = true then p.rootText else w.text)
    (p.components.filter fun step => step != .root && step != .here) = text at hbelow ⊢
  split
  next hslash =>
    simp only [Bool.and_eq_true, Bool.not_eq_true'] at hslash
    exact (child_append_slash hbelow hslash.2 hn).symm
  next => rfl

/-! ## Parents -/

/-- The parent of a name in a directory is the directory, if no slash stands behind it. -/
theorem parent?_child (h : p.isAbsolute = true) (hlast : ∀ f, p.fields.getLast? = some f → isIdle f = false)
    (hn : IsStep name) : (p.child name).parent? = some p := by
  obtain ⟨fs, hne, hfs⟩ := exists_fields_of_isAbsolute h
  have hend : p.fields.getLast? ≠ some "" := fun hempty => absurd (hlast "" hempty) (by decide)
  have hfields : (p.child name).fields = "" :: (fs ++ [name]) := by
    rw [fields_child h hn.1, if_neg hend, hfs]
    rfl
  have hdrop : dropStep (fs ++ [name]) = some fs := by
    obtain ⟨front, f, rfl⟩ : ∃ front f, fs = front ++ [f] := ⟨_, _, (List.dropLast_concat_getLast hne).symm⟩
    have hf : isIdle f = false := hlast f (by rw [hfs, ← List.cons_append, List.getLast?_concat])
    simp [dropStep, hn.2, hf]
  have htext : "/" ++ Text.unfields '/' fs = p.text := by
    have hp := Text.unfields_fields '/' p.text
    rw [show Text.fields '/' p.text = "" :: fs from hfs] at hp
    rw [← hp]
    cases fs with
    | nil => exact absurd rfl hne
    | cons f fs => exact String.toList_inj.1 (by simp [Text.unfields, Text.join])
  simp only [parent?, isAbsolute_child h name, hfields, List.tail_cons, hdrop, Option.map_some, htext]

/-! ## Last names -/

/-- An absolute path that ends with a name comes down to it. -/
theorem exists_front (hp : p.isAbsolute = true) (hx : p.fileName = some name) :
    ∃ front, p.components = .root :: (front ++ [.name name]) := by
  obtain ⟨fs, _, _, hroot⟩ := p.exists_fields
  unfold fileName at hx
  split at hx
  next s hs =>
    cases hx
    obtain ⟨front, hfront⟩ := List.getLast?_eq_some_iff.1 hs
    rw [hroot hp] at hfront ⊢
    cases front with
    | nil => cases hfront
    | cons first front => exact ⟨front, congrArg _ (List.cons.inj hfront).2⟩
  next => cases hx

/-- The name that an absolute path ends with is a step down. -/
theorem isStep_of_fileName (hp : p.isAbsolute = true) (hx : p.fileName = some name) : IsStep name ∧ name ≠ ".." := by
  obtain ⟨front, hfront⟩ := exists_front hp hx
  have hmem : Component.name name ∈ p.components := by simp [hfront]
  refine ⟨isStep_of_mem_components hmem (by simp) (by simp), ?_⟩
  rintro rfl
  obtain ⟨fs, _, _, hroot⟩ := p.exists_fields
  rw [hroot hp] at hmem
  obtain ⟨f, _, hf⟩ : ∃ f ∈ fs, component? f = some (.name "..") := by simpa using hmem
  unfold component? at hf
  split at hf
  · cases hf
  · split at hf
    · cases hf
    next hne =>
      cases hf
      simp at hne

/-- The steps of a path that ends with a name are a name in a directory. -/
theorem exists_bare_eq (hp : p.isAbsolute = true) (hx : p.fileName = some name) :
    ∃ front : Path, front.isAbsolute = true ∧ p.bare = front.child name := by
  obtain ⟨front, hfront⟩ := exists_front hp hx
  have hsteps : ∀ c ∈ front, IsStep c.text := by
    intro c hc
    refine isStep_of_mem_steps hp ?_
    rw [steps, hfront]
    exact List.mem_map_of_mem (List.mem_append_left _ hc)
  refine ⟨⟨below p.rootText front⟩, (isCanonical_below hsteps (w := p) (isCanonical_rootText p)).1, ?_⟩
  rw [bare, hfront, List.tail_cons, below, List.foldl_append]
  rfl

end Path

end ImportClosure
