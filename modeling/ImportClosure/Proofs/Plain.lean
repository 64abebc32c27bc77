import ImportClosure.Proofs.Located

/-!
# Plainly written paths

Module files are written from the root, with a single slash in front of each step and at most one behind the last
(`Path.IsPlain`). The way in which such a path is written follows from its components, up to the slash at the end, so two
directories that are the same by their components have the same paths below them (`Path.IsPlain.child_eq`). Two slashes at
the root are kept when a path is made absolute; they lead where one does, in one byte more.
-/

namespace ImportClosure

namespace Path

/-- The steps of a path behind the root, as they are written. -/
def steps (p : Path) : List String :=
  p.components.tail.map Component.text

/-- A path from the root with single slashes, and at most one behind the last step. The empty path, which has no absolute
form, counts as well. -/
def IsPlain (p : Path) : Prop :=
  p.fields = "" :: p.steps ∨ p.fields = "" :: (p.steps ++ [""])

instance : DecidablePred IsPlain :=
  fun _ => inferInstanceAs (Decidable (_ ∨ _))

/-- A text between two slashes that is a step. -/
def IsStep (name : String) : Prop :=
  '/' ∉ name.toList ∧ isIdle name = false

instance : DecidablePred IsStep :=
  fun _ => inferInstanceAs (Decidable (_ ∧ _))

/-- A step is not absolute. -/
theorem IsStep.isAbsolute_eq {name : String} (h : IsStep name) : Path.isAbsolute ⟨name⟩ = false :=
  isAbsolute_of_not_mem h.1

/-- A step is a component that is written as it stands. -/
theorem IsStep.exists_component {name : String} (h : IsStep name) :
    ∃ c, component? name = some c ∧ c.text = name := by
  cases hc : component? name with
  | none =>
    rw [component?_eq_none, h.2] at hc
    cases hc
  | some c => exact ⟨c, rfl, text_of_component? hc⟩

/-! ## Steps -/

/-- The steps among fields, as they are written. -/
theorem map_text_filterMap (fs : List String) :
    (fs.filterMap component?).map Component.text = fs.filter fun f => !isIdle f := by
  induction fs with
  | nil => rfl
  | cons f fs ih =>
    cases hf : isIdle f with
    | true => rw [List.filterMap_cons_none (component?_eq_none.2 hf), ih, List.filter_cons_of_neg (by simp [hf])]
    | false =>
      cases hc : component? f with
      | none =>
        rw [component?_eq_none, hf] at hc
        cases hc
      | some c =>
        rw [List.filterMap_cons_some hc, List.map_cons, text_of_component? hc, ih, List.filter_cons_of_pos (by simp [hf])]

variable {p q : Path} {name : String}

/-- The steps of an absolute path are its fields behind the root that are not idle. -/
theorem steps_eq (h : p.isAbsolute = true) : p.steps = p.fields.tail.filter fun f => !isIdle f := by
  obtain ⟨s, rfl⟩ := isAbsolute_iff.1 h
  rw [steps, components_root, fields_root]
  exact map_text_filterMap _

/-- The steps of an absolute path are steps. -/
theorem isStep_of_mem_steps (h : p.isAbsolute = true) (hmem : name ∈ p.steps) : IsStep name := by
  rw [steps_eq h] at hmem
  obtain ⟨hfield, hidle⟩ := List.mem_filter.1 hmem
  exact ⟨Text.not_mem_of_mem_fields (List.mem_of_mem_tail hfield), by simpa using hidle⟩

/-- A step in a directory. -/
theorem components_child_of_isStep (h : p.isAbsolute = true) (hn : IsStep name) :
    ∃ c, component? name = some c ∧ (p.child name).components = p.components ++ [c] := by
  obtain ⟨c, hc, _⟩ := hn.exists_component
  refine ⟨c, hc, ?_⟩
  rw [child, components_join h hn.isAbsolute_eq, Path.fields, Text.fields_of_not_mem hn.1]
  simp [hc]

/-- A child adds its name to the steps. -/
theorem steps_child (h : p.isAbsolute = true) (hn : IsStep name) : (p.child name).steps = p.steps ++ [name] := by
  obtain ⟨s, rfl⟩ := isAbsolute_iff.1 h
  obtain ⟨c, hc, hcomp⟩ := components_child_of_isStep h hn
  rw [steps, hcomp, components_root, steps, components_root]
  simp [text_of_component? hc]

/-! ## How plain paths are written -/

/-- An absolute path has a field behind the root. -/
theorem exists_fields_of_isAbsolute (h : p.isAbsolute = true) : ∃ fs, fs ≠ [] ∧ p.fields = "" :: fs := by
  obtain ⟨s, rfl⟩ := isAbsolute_iff.1 h
  refine ⟨Text.fields '/' s, ?_, fields_root s⟩
  simp [Text.fields, Text.split_ne_nil]

/-- An absolute path ends with a slash if nothing stands in its last field. -/
theorem endsWith_iff_of_isAbsolute (h : p.isAbsolute = true) :
    Text.endsWith p.text "/" = true ↔ p.fields.getLast? = some "" := by
  rw [Text.endsWith_iff (show "/".toList = ['/'] from rfl)]
  obtain ⟨fs, hne, hfs⟩ := exists_fields_of_isAbsolute h
  constructor
  · rintro ⟨front, _, hfront⟩
    rw [fields, hfront, List.getLast?_concat]
  · intro hlast
    obtain ⟨front, hfront⟩ := List.getLast?_eq_some_iff.1 hlast
    refine ⟨front, ?_, hfront⟩
    rintro rfl
    rw [hfs] at hfront
    simp [hne] at hfront

/-- The fields of a name in a directory are those of the directory without an empty last one, and the name. -/
theorem fields_child (h : p.isAbsolute = true) (hn : '/' ∉ name.toList) :
    (p.child name).fields = (if p.fields.getLast? = some "" then p.fields.dropLast else p.fields) ++ [name] := by
  have hname : Text.fields '/' name = [name] := Text.fields_of_not_mem hn
  have hne : (p.text == "") = false := by simpa using ModuleFile.text_ne_nil_of_isAbsolute h
  unfold child join
  rw [isAbsolute_of_not_mem hn]
  simp only [Bool.false_eq_true, if_false, hne, Bool.false_or]
  by_cases hlast : p.fields.getLast? = some ""
  · have hend := (endsWith_iff_of_isAbsolute h).2 hlast
    obtain ⟨front, hne, hfront⟩ := (Text.endsWith_iff (show "/".toList = ['/'] from rfl)).1 hend
    have htext : p.text = Text.unfields '/' front ++ "/" := by
      rw [← Text.unfields_fields '/' p.text, hfront]
      have hparts : front.map String.toList ≠ [] := by simpa using hne
      apply String.toList_inj.1
      simp [Text.unfields, Text.join_concat hparts]
    have hslash : ∀ f ∈ front, '/' ∉ f.toList :=
      fun f hf => Text.not_mem_of_mem_fields (hfront ▸ List.mem_append_left [""] hf)
    simp only [hend, if_true, if_pos hlast]
    rw [Path.fields, htext, Text.fields_append rfl, hname, Text.fields_unfields hne hslash, Path.fields, hfront]
    simp
  · have hend : Text.endsWith p.text "/" = false := by
      rw [← Bool.not_eq_true, endsWith_iff_of_isAbsolute h]
      exact hlast
    simp only [hend, Bool.false_eq_true, if_false, if_neg hlast]
    rw [Path.fields, Text.fields_append rfl, hname, Path.fields]

namespace IsPlain

/-- The last field of a plain path is empty only behind a slash. -/
theorem fields_eq (hp : p.IsPlain) (h : p.isAbsolute = true) :
    (if p.fields.getLast? = some "" then p.fields.dropLast else p.fields) = "" :: p.steps := by
  rcases hp with hp | hp
  · have hlast : p.fields.getLast? ≠ some "" := by
      intro hlast
      obtain ⟨fs, hne, hfs⟩ := exists_fields_of_isAbsolute h
      have hmem : "" ∈ p.steps := by
        have hsteps : p.steps = fs := by simpa [hfs] using hp.symm
        rw [hsteps]
        rw [hfs, List.getLast?_cons_of_ne_nil hne] at hlast
        exact List.mem_of_getLast? hlast
      exact absurd (isStep_of_mem_steps h hmem).2 (by decide)
    rw [if_neg hlast, hp]
  · rw [hp]
    have hcons : "" :: (p.steps ++ [""]) = ("" :: p.steps) ++ [""] := rfl
    rw [hcons, List.getLast?_concat, if_pos rfl, List.dropLast_concat]

/-- The fields of a child of a plain directory are its steps behind the root. -/
theorem fields_child (hp : p.IsPlain) (h : p.isAbsolute = true) (hn : '/' ∉ name.toList) :
    (p.child name).fields = "" :: (p.steps ++ [name]) := by
  rw [Path.fields_child h hn, hp.fields_eq h]
  rfl

/-- A step in a plain directory is plain. -/
theorem child (hp : p.IsPlain) (h : p.isAbsolute = true) (hn : IsStep name) : (p.child name).IsPlain := by
  left
  rw [hp.fields_child h hn.1, steps_child h hn]

/-- Plain directories with the same components have the same paths below them. -/
theorem child_eq (hp : p.IsPlain) (hq : q.IsPlain) (h : p.isAbsolute = true) (hpq : p.components = q.components)
    (hq' : q.isAbsolute = true) (hn : '/' ∉ name.toList) : p.child name = q.child name := by
  have hfields : (p.child name).fields = (q.child name).fields := by
    rw [hp.fields_child h hn, hq.fields_child hq' hn, steps, hpq, steps]
  have htext : (p.child name).text = (q.child name).text := by
    rw [← Text.unfields_fields '/' (p.child name).text, ← Text.unfields_fields '/' (q.child name).text]
    exact congrArg (Text.unfields '/') hfields
  exact congrArg Path.mk htext

end IsPlain

/-! ## Paths that are made plain -/

/-- Steps that are written behind the root are plain. -/
theorem isPlain_unfields {fs : List String} (h : ∀ f ∈ fs, IsStep f) : IsPlain ⟨"/" ++ Text.unfields '/' fs⟩ := by
  cases fs with
  | nil => decide
  | cons f fs =>
    have hfields : Path.fields ⟨"/" ++ Text.unfields '/' (f :: fs)⟩ = "" :: (f :: fs) := by
      rw [fields_root, Text.fields_unfields (by simp) fun g hg => (h g hg).1]
    have hsteps : Path.steps ⟨"/" ++ Text.unfields '/' (f :: fs)⟩ = f :: fs := by
      rw [steps_eq (isAbsolute_root _), hfields, List.tail_cons]
      exact List.filter_eq_self.2 fun g hg => by simp [(h g hg).2]
    left
    rw [hfields, hsteps]

/-- The parent of a plain path is plain. -/
theorem IsPlain.parent? (hp : p.IsPlain) (h : p.isAbsolute = true) (hq : p.parent? = some q) : q.IsPlain := by
  simp only [Path.parent?, h, Option.map_eq_some_iff] at hq
  obtain ⟨kept, hkept, rfl⟩ := hq
  obtain ⟨hfront, c, hc⟩ := dropStep_some hkept
  refine isPlain_unfields fun f hf => ?_
  by_cases hmem : f ∈ p.steps
  · exact isStep_of_mem_steps h hmem
  · -- only the field behind a trailing slash is no step, and it is dropped together with the last one
    exfalso
    rcases hp with hp | hp
    · rw [hp] at hfront
      exact hmem (hfront.subset hf)
    · rw [hp, List.tail_cons, List.prefix_concat_iff] at hfront
      rcases hfront with rfl | hfront
      · rw [hp, List.tail_cons] at hc
        simp at hc
      · exact hmem (hfront.subset hf)

/-- Steps that are written below a plain path make a plain path. -/
theorem isPlain_below {cs : List Component} (hcs : ∀ c ∈ cs, IsStep c.text) (hp : p.IsPlain) (h : p.isAbsolute = true) :
    IsPlain ⟨below p.text cs⟩ ∧ Path.isAbsolute ⟨below p.text cs⟩ = true := by
  induction cs generalizing p with
  | nil => exact ⟨hp, h⟩
  | cons c cs ih =>
    have hc : IsStep c.text := hcs c List.mem_cons_self
    exact ih (fun d hd => hcs d (List.mem_cons_of_mem c hd)) (hp.child h hc) (isAbsolute_child h c.text)

/-- A slash behind a plain path that does not end with one leaves it plain. -/
theorem IsPlain.append_slash (hp : p.IsPlain) (h : p.isAbsolute = true) (hend : Text.endsWith p.text "/" = false) :
    IsPlain ⟨p.text ++ "/"⟩ := by
  have hlast : p.fields.getLast? ≠ some "" := by
    intro hlast
    rw [(endsWith_iff_of_isAbsolute h).2 hlast] at hend
    cases hend
  have hfields : Path.fields ⟨p.text ++ "/"⟩ = p.fields ++ [""] := by
    have hf := Text.fields_append (show "/".toList = ['/'] from rfl) p.text ""
    rwa [String.append_empty] at hf
  have hsteps : Path.steps ⟨p.text ++ "/"⟩ = p.steps := by rw [steps, components_append_slash h, steps]
  right
  rw [hfields, hsteps]
  rcases hp with hp | hp
  · rw [hp]
    rfl
  · rw [hp, ← List.cons_append, List.getLast?_concat] at hlast
    exact absurd rfl hlast

/-- The steps of a path, the root and a leading dot apart, are steps as they are written. -/
theorem isStep_of_mem_components {c : Component} (hmem : c ∈ p.components) (hroot : c ≠ .root) (hhere : c ≠ .here) :
    IsStep c.text := by
  obtain ⟨fs, hfs, hfilter, _⟩ := p.exists_fields
  have hc : c ∈ fs.filterMap component? := by
    rw [← hfilter]
    exact List.mem_filter.2 ⟨hmem, by simp [hroot, hhere]⟩
  obtain ⟨f, hf, hstep⟩ := List.mem_filterMap.1 hc
  rw [text_of_component? hstep]
  refine ⟨hfs f hf, ?_⟩
  rw [← Bool.not_eq_true, ← component?_eq_none, hstep]
  simp

/-- The path from the root is plain, unless it is written with two slashes at the root. -/
theorem IsPlain.absolute {w : Path} (hw : w.IsPlain) (hwabs : w.isAbsolute = true) (hp : p.rootText = "/") :
    (p.absolute w).IsPlain := by
  by_cases htext : p.text = ""
  · have hempty : p.absolute w = ⟨""⟩ := by
      rcases p with ⟨text⟩
      obtain rfl : text = "" := htext
      rfl
    rw [hempty]
    decide
  · have hsteps : ∀ c ∈ p.components.filter (fun step => step != .root && step != .here), IsStep c.text := by
      intro c hc
      obtain ⟨hmem, hne⟩ := List.mem_filter.1 hc
      simp only [Bool.and_eq_true, bne_iff_ne] at hne
      exact isStep_of_mem_components hmem hne.1 hne.2
    have hstart : ∃ start : Path, (if p.isAbsolute then p.rootText else w.text) = start.text ∧ start.IsPlain ∧
        start.isAbsolute = true := by
      cases p.isAbsolute with
      | true => exact ⟨⟨"/"⟩, hp, by decide, by decide⟩
      | false => exact ⟨w, rfl, hw, hwabs⟩
    obtain ⟨start, hstart, hplain, habs⟩ := hstart
    obtain ⟨hbelow, hbelowabs⟩ := isPlain_below hsteps hplain habs
    simp only [Path.absolute, beq_iff_eq, htext, if_false, hstart]
    split
    next hend =>
      simp only [Bool.and_eq_true, Bool.not_eq_true'] at hend
      exact hbelow.append_slash hbelowabs hend.2
    next => exact hbelow

/-! ## One slash at the root -/

/-- A path does not begin with two slashes, unless it begins with three. -/
theorem rootText_eq_iff : p.rootText = "/" ↔ (['/', '/'] <+: p.text.toList → ['/', '/', '/'] <+: p.text.toList) := by
  unfold rootText Text.startsWith
  rw [show "//".toList = ['/', '/'] from rfl, show "///".toList = ['/', '/', '/'] from rfl, ← List.isPrefixOf_iff_prefix,
    ← List.isPrefixOf_iff_prefix]
  cases List.isPrefixOf ['/', '/'] p.text.toList <;> cases List.isPrefixOf ['/', '/', '/'] p.text.toList <;> simp

/-- What does not begin with a slash does not begin with two. -/
theorem rootText_of_not_mem (hn : '/' ∉ name.toList) : Path.rootText ⟨name⟩ = "/" := by
  rw [rootText_eq_iff]
  intro h
  exact absurd (h.subset List.mem_cons_self) hn

/-- A child begins at the same root. -/
theorem rootText_child (h : p.rootText = "/") (hn : '/' ∉ name.toList) : (p.child name).rootText = "/" := by
  rw [rootText_eq_iff] at h ⊢
  have hfront : ∀ cs : List Char, cs <+: name.toList → '/' ∉ cs := fun cs hcs hmem => hn (hcs.subset hmem)
  unfold child join
  rw [isAbsolute_of_not_mem hn]
  simp only [Bool.false_eq_true, if_false]
  rcases htext : p.text.toList with _ | ⟨a, _ | ⟨b, cs⟩⟩
  · have hempty : p.text = "" := String.toList_inj.1 htext
    simp only [hempty, beq_self_eq_true, Bool.true_or, if_true, String.empty_append]
    intro hslash
    exact absurd (hslash.subset List.mem_cons_self) hn
  · by_cases ha : a = '/'
    · have hend : Text.endsWith p.text "/" = true := by simp [Text.endsWith, htext, ha]
      simp only [hend, Bool.or_true, if_true, String.toList_append, htext]
      intro hslash
      refine absurd ?_ (hfront ['/'] ?_)
      · simp
      · simpa [ha] using hslash
    · split
      · simp [htext, Ne.symm ha]
      · simp [htext, Ne.symm ha]
  · -- the first two characters are those of the directory, and a third slash stands in it as well
    have hfirst : ∀ more : List Char, ['/', '/'] <+: a :: b :: (cs ++ more) →
        ['/', '/', '/'] <+: a :: b :: (cs ++ more) := by
      intro more hslash
      have hslash' : ['/', '/'] <+: a :: b :: cs := by simpa using hslash
      rw [htext] at h
      exact (h hslash').trans (by simp)
    split
    · simpa [htext] using hfirst name.toList
    · simpa [htext] using hfirst ('/' :: name.toList)

/-- A plain path begins at the root. -/
theorem IsPlain.rootText_eq (hp : p.IsPlain) : p.rootText = "/" := by
  rw [rootText_eq_iff]
  rintro ⟨cs, hcs⟩
  exfalso
  have htext : p = ⟨"/" ++ ("/" ++ String.ofList cs)⟩ := congrArg Path.mk (String.toList_inj.1 (by simp [← hcs]))
  have habs : p.isAbsolute = true := htext ▸ isAbsolute_root _
  have hfields : p.fields = "" :: "" :: Text.fields '/' (String.ofList cs) := by
    rw [htext, fields_root]
    exact congrArg (List.cons "") (fields_root _)
  have hnot : "" ∉ p.steps := fun hmem => absurd (isStep_of_mem_steps habs hmem).2 (by decide)
  have hne : Text.fields '/' (String.ofList cs) ≠ [] := by simp [Text.fields, Text.split_ne_nil]
  rcases hp with hp | hp <;> rw [hfields, List.cons.injEq] at hp
  · exact hnot (by simp [← hp.2])
  · cases hsteps : p.steps with
    | nil => simp [hsteps, hne] at hp
    | cons f fs =>
      rw [hsteps, List.cons_append, List.cons.injEq] at hp
      exact hnot (by simp [hsteps, ← hp.2.1])

/-- Only an absolute path has the root among its components. -/
theorem isAbsolute_of_root_mem (h : .root ∈ p.components) : p.isAbsolute = true := by
  have hsteps : ∀ fs : List String, .root ∉ fs.filterMap component? := by
    intro fs hmem
    rw [← filter_filterMap fs] at hmem
    simp at hmem
  rw [← Bool.not_eq_false]
  intro ha
  by_cases hdot : ∃ rest, p.fields = "." :: rest
  · obtain ⟨rest, hrest⟩ := hdot
    rw [components_here ha hrest] at h
    exact hsteps rest ((List.mem_cons.1 h).resolve_left nofun)
  · rw [components_relative ha fun rest hrest => hdot ⟨rest, hrest⟩] at h
    exact hsteps p.fields h

end Path

namespace ModuleFile

variable {f : ModuleFile}

/-- What a plain file from the root stands for is plain. -/
theorem isPlain_identity (hf : f.path.IsPlain) (h : f.path.isAbsolute = true) : f.identity.IsPlain := by
  unfold identity
  split
  next hi =>
    have hname : f.path.fileName = some initEntry := by simpa [isInitEntry] using hi
    obtain ⟨dir, hdir⟩ := Path.exists_parent? hname
    rw [hdir]
    exact hf.parent? h hdir
  next => exact hf

/-- A file from the root has the root in its place. -/
theorem root_mem_place (h : f.path.isAbsolute = true) : .root ∈ f.place := by
  have hroot : .root ∈ f.path.components := by
    obtain ⟨s, hs⟩ := Path.isAbsolute_iff.1 h
    rw [hs, Path.components_root]
    exact List.mem_cons_self
  rw [components_path] at hroot
  split at hroot
  · rcases List.mem_append.1 hroot with hroot | hroot
    · exact hroot
    · cases List.mem_singleton.1 hroot
  · exact hroot

/-- A file with the root in its place is written from the root. -/
theorem isAbsolute_of_root_mem_place (h : .root ∈ f.place) : f.path.isAbsolute = true := by
  refine Path.isAbsolute_of_root_mem ?_
  rw [components_path]
  split
  · exact List.mem_append_left _ h
  · exact h

end ModuleFile

end ImportClosure
