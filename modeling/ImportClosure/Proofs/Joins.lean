import ImportClosure.Proofs.Paths

/-!
# Paths put together

What is written behind an absolute path adds its own steps to those of the path (`Path.components_join`), the path from
the root keeps the steps of an absolute one (`Path.absolute_spec`), and a name that does not begin with a slash or a dot
lies below its directory (`Path.components_child`).
-/

namespace ImportClosure

namespace Path

/-! ## Paths put together -/

/-- What is written behind an absolute path leaves it absolute. -/
theorem isAbsolute_append {p : Path} (h : p.isAbsolute = true) (s : String) : Path.isAbsolute ⟨p.text ++ s⟩ = true := by
  obtain ⟨r, rfl⟩ := isAbsolute_iff.1 h
  exact isAbsolute_iff.2 ⟨r ++ s, by simp [String.append_assoc]⟩

/-- A path behind an absolute one is absolute. -/
theorem isAbsolute_join {dir p : Path} (h : dir.isAbsolute = true) : (dir.join p).isAbsolute = true := by
  unfold join
  split
  · assumption
  · split
    · exact isAbsolute_append h _
    · rw [String.append_assoc]
      exact isAbsolute_append h _

/-- A trailing slash is no step. -/
theorem filterMap_fields_append (s t : String) (h : Text.endsWith ("/" ++ s) "/" = true) :
    (Text.fields '/' (s ++ t)).filterMap component? =
      (Text.fields '/' s).filterMap component? ++ (Text.fields '/' t).filterMap component? := by
  rw [Text.endsWith, List.isSuffixOf_iff_suffix, String.toList_append] at h
  rcases List.suffix_cons_iff.1 (show ['/'] <:+ '/' :: s.toList from h) with h | ⟨v, hv⟩
  · obtain rfl : s = "" := String.toList_inj.1 (by simpa using h.symm)
    rw [String.empty_append]
    rfl
  · obtain rfl : s = String.ofList v ++ "/" := String.toList_inj.1 (by simp [← hv])
    have he : Text.fields '/' (String.ofList v ++ "/") = Text.fields '/' (String.ofList v) ++ [""] := by
      have hf := Text.fields_append (show "/".toList = ['/'] from rfl) (String.ofList v) ""
      rwa [String.append_empty] at hf
    rw [Text.fields_append rfl, he, List.filterMap_append, List.filterMap_append]
    simp [component?, isIdle]

/-- The steps of a relative path come behind those of the directory. -/
theorem components_join {dir p : Path} (hd : dir.isAbsolute = true) (hp : p.isAbsolute = false) :
    (dir.join p).components = dir.components ++ p.fields.filterMap component? := by
  obtain ⟨s, rfl⟩ := isAbsolute_iff.1 hd
  unfold join
  rw [hp]
  simp only [Bool.false_eq_true, if_false]
  split
  next h =>
    have he : Text.endsWith ("/" ++ s) "/" = true := by
      rcases Bool.or_eq_true_iff.1 h with h | h
      · simp at h
      · exact h
    rw [String.append_assoc, components_root, components_root, filterMap_fields_append s p.text he]
    rfl
  next h =>
    have ht : "/" ++ s ++ "/" ++ p.text = "/" ++ (s ++ "/" ++ p.text) := by simp only [String.append_assoc]
    rw [ht, components_root, components_root, Text.fields_append rfl, List.filterMap_append]
    rfl

/-- A step is written as the field that it stands for. -/
theorem text_of_component? {f : String} {c : Component} (h : component? f = some c) : c.text = f := by
  unfold component? at h
  split at h
  · cases h
  · split at h
    next hf =>
      cases h
      exact (beq_iff_eq.1 hf).symm
    · cases h
      rfl

/-- A path without a slash is not absolute. -/
theorem isAbsolute_of_not_mem {f : String} (h : '/' ∉ f.toList) : Path.isAbsolute ⟨f⟩ = false := by
  rw [← Bool.not_eq_true, isAbsolute_iff]
  rintro ⟨s, hs⟩
  rw [Path.mk.injEq] at hs
  exact h (by simp [hs])

/-- Steps that are written below an absolute path. -/
theorem components_foldl_join {fs : List String} {steps : List Component} (h : ∀ f ∈ fs, '/' ∉ f.toList)
    (hs : fs.filterMap component? = steps) {start : String} (ha : Path.isAbsolute ⟨start⟩ = true) :
    Path.isAbsolute ⟨below start steps⟩ = true ∧
      Path.components ⟨below start steps⟩ = Path.components ⟨start⟩ ++ steps := by
  subst hs
  induction fs generalizing start with
  | nil => exact ⟨ha, (List.append_nil _).symm⟩
  | cons f fs ih =>
    have hfs : ∀ f ∈ fs, '/' ∉ f.toList := fun g hg => h g (List.mem_cons_of_mem f hg)
    cases hc : component? f with
    | none =>
      rw [List.filterMap_cons_none hc]
      exact ih hfs ha
    | some c =>
      have hf := h f List.mem_cons_self
      rw [List.filterMap_cons_some hc, below, List.foldl_cons, text_of_component? hc]
      have hjoin : Path.isAbsolute ⟨(Path.join ⟨start⟩ ⟨f⟩).text⟩ = true := isAbsolute_join ha
      obtain ⟨habs, hcomp⟩ := ih hfs hjoin
      refine ⟨habs, hcomp.trans ?_⟩
      rw [components_join ha (isAbsolute_of_not_mem hf), Path.fields, Text.fields_of_not_mem hf]
      simp [hc]

/-- The root and a leading dot are not among the steps that fields stand for. -/
theorem filter_filterMap (fs : List String) :
    (fs.filterMap component?).filter (fun step => step != .root && step != .here) = fs.filterMap component? := by
  refine List.filter_eq_self.2 fun step hmem => ?_
  obtain ⟨f, _, hf⟩ := List.mem_filterMap.1 hmem
  unfold component? at hf
  split at hf
  · cases hf
  · split at hf <;> cases hf <;> rfl

/-- The fields that the steps of a path are written out of. -/
theorem exists_fields (p : Path) : ∃ fs : List String, (∀ f ∈ fs, '/' ∉ f.toList) ∧
    (p.components.filter fun step => step != .root && step != .here) = fs.filterMap component? ∧
      (p.isAbsolute = true → p.components = .root :: fs.filterMap component?) := by
  cases ha : p.isAbsolute with
  | true =>
    obtain ⟨s, rfl⟩ := isAbsolute_iff.1 ha
    refine ⟨Text.fields '/' s, fun f => Text.not_mem_of_mem_fields, ?_, fun _ => components_root s⟩
    rw [components_root]
    exact filter_filterMap _
  | false =>
    by_cases hdot : ∃ rest, p.fields = "." :: rest
    · obtain ⟨rest, hrest⟩ := hdot
      refine ⟨rest, not_mem_of_mem_fields (p := p) fun f hf => hrest ▸ List.mem_cons_of_mem _ hf, ?_, nofun⟩
      rw [components_here ha hrest]
      exact filter_filterMap _
    · refine ⟨p.fields, not_mem_of_mem_fields (p := p) fun _ => id, ?_, nofun⟩
      rw [components_relative ha fun rest hrest => hdot ⟨rest, hrest⟩]
      exact filter_filterMap _

/-- A slash behind an absolute path changes nothing. -/
theorem components_append_slash {p : Path} (h : p.isAbsolute = true) :
    Path.components ⟨p.text ++ "/"⟩ = p.components := by
  obtain ⟨s, rfl⟩ := isAbsolute_iff.1 h
  have hf := Text.fields_append (show "/".toList = ['/'] from rfl) s ""
  rw [String.append_empty] at hf
  rw [String.append_assoc, components_root, components_root, hf, List.filterMap_append]
  exact congrArg _ (List.append_nil _)

/-- The path from the root is absolute; an absolute path keeps its steps. -/
theorem absolute_spec {p w : Path} (hw : w.isAbsolute = true) (hp : p.text ≠ "") :
    (p.absolute w).isAbsolute = true ∧ (p.isAbsolute = true → (p.absolute w).components = p.components) := by
  obtain ⟨fs, hfs, hfilter, hroot⟩ := p.exists_fields
  have hrootText : Path.isAbsolute ⟨p.rootText⟩ = true ∧ Path.components ⟨p.rootText⟩ = [.root] := by
    unfold rootText
    split <;> decide
  have hstart : Path.isAbsolute ⟨if p.isAbsolute then p.rootText else w.text⟩ = true := by
    split
    · exact hrootText.1
    · exact hw
  obtain ⟨habs, hcomp⟩ := components_foldl_join hfs rfl hstart
  have hsteps : p.isAbsolute = true →
      Path.components ⟨below (if p.isAbsolute then p.rootText else w.text) (fs.filterMap component?)⟩ = p.components := by
    intro h
    rw [hcomp, if_pos h, hrootText.2, hroot h]
    rfl
  simp only [absolute, hfilter, beq_iff_eq, hp, if_false]
  generalize (if p.isAbsolute = true then p.rootText else w.text) = start at habs hsteps ⊢
  split
  · exact ⟨isAbsolute_append habs "/", fun h => (components_append_slash habs).trans (hsteps h)⟩
  · exact ⟨habs, hsteps⟩

/-- Above an absolute path are absolute ones. -/
theorem isAbsolute_parent? {p q : Path} (h : p.parent? = some q) (hp : p.isAbsolute = true) : q.isAbsolute = true := by
  simp only [parent?, hp, Option.map_eq_some_iff] at h
  obtain ⟨kept, _, rfl⟩ := h
  exact isAbsolute_root _

/-! ## Names in directories -/

/-- A name that is at least one step, whatever is written behind it. -/
def BeginsStep (name : String) : Prop :=
  ∃ c cs, name.toList = c :: cs ∧ c ≠ '/' ∧ c ≠ '.'

/-- A component of a dotted name begins a step, unless it begins at the root. -/
theorem beginsStep_of_not_mem {name : String} (hne : name ≠ "") (hdot : '.' ∉ name.toList)
    (hr : Path.isAbsolute ⟨name⟩ = false) : BeginsStep name := by
  cases hl : name.toList with
  | nil => exact absurd (String.toList_inj.1 hl) hne
  | cons c cs =>
    refine ⟨c, cs, hl, fun hc => ?_, fun hc => hdot (by simp [hl, hc])⟩
    have hslash : Path.isAbsolute ⟨name⟩ = true :=
      isAbsolute_iff.2 ⟨String.ofList cs, by rw [Path.mk.injEq]; exact String.toList_inj.1 (by simp [hl, hc])⟩
    rw [hr] at hslash
    cases hslash

namespace BeginsStep

variable {name : String}

/-- What begins with the beginning of a step begins like one. -/
theorem of_startsWith {file : String} (h : BeginsStep name) (hf : Text.startsWith file name = true) :
    BeginsStep file := by
  obtain ⟨c, cs, hl, hc⟩ := h
  obtain ⟨more, hmore⟩ := List.isPrefixOf_iff_prefix.1 hf
  exact ⟨c, cs ++ more, by rw [← hmore, hl]; rfl, hc⟩

/-- The beginning of a step may go on. -/
theorem append (h : BeginsStep name) (s : String) : BeginsStep (name ++ s) :=
  h.of_startsWith (by simp [Text.startsWith])

/-- The beginning of a step is not absolute. -/
theorem isAbsolute_eq (h : BeginsStep name) : Path.isAbsolute ⟨name⟩ = false := by
  obtain ⟨c, cs, hl, hc, _⟩ := h
  simp [isAbsolute, Text.startsWith, hl, List.isPrefixOf, Ne.symm hc]

/-- Its first field is a step, and what else there is in it comes behind. -/
theorem exists_fields (h : BeginsStep name) : ∃ first rest, Text.fields '/' name = first :: rest ∧
    component? first = some (.name first) ∧ first.toList = name.toList.takeWhile (· != '/') := by
  obtain ⟨c, cs, hl, hslash, hdot⟩ := h
  obtain ⟨rest, hrest⟩ := Text.exists_fields '/' name
  have hfirst : name.toList.takeWhile (· != '/') = c :: cs.takeWhile (· != '/') := by simp [hl, hslash]
  refine ⟨_, rest, hrest, ?_, String.toList_ofList⟩
  have hne : ∀ s : String, (∀ d ds, s.toList = d :: ds → d = '.') →
      String.ofList (name.toList.takeWhile (· != '/')) ≠ s := by
    rintro s hs rfl
    exact hdot (hs c _ (by rw [String.toList_ofList, hfirst]))
  rw [component?, isIdle]
  simp only [beq_iff_eq, Bool.or_eq_true, hne "" (by simp), hne "." (by simp), hne ".." (by simp), or_self, if_false]

end BeginsStep

/-- A child of an absolute directory is absolute. -/
theorem isAbsolute_child {dir : Path} (h : dir.isAbsolute = true) (name : String) :
    (dir.child name).isAbsolute = true :=
  isAbsolute_join h

/-- A name in a directory is at least a step below it. -/
theorem components_child {dir : Path} {name : String} (hd : dir.isAbsolute = true) (hn : BeginsStep name) :
    ∃ first rest, first.toList = name.toList.takeWhile (· != '/') ∧
      (dir.child name).components = dir.components ++ .name first :: rest := by
  obtain ⟨first, rest, hf, hc, ht⟩ := hn.exists_fields
  refine ⟨first, rest.filterMap component?, ht, ?_⟩
  rw [child, components_join hd hn.isAbsolute_eq, Path.fields, hf, List.filterMap_cons_some hc]

/-- A child has at least one component more than its directory. -/
theorem length_components_child {dir : Path} {name : String} (hd : dir.isAbsolute = true) (hn : BeginsStep name) :
    dir.components.length + 1 ≤ (dir.child name).components.length := by
  obtain ⟨first, rest, _, hc⟩ := components_child hd hn
  simp [hc]

end Path

end ImportClosure
