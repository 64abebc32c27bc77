import ImportClosure.Proofs.Housed
import ImportClosure.Proofs.SameBelow

/-!
# Paths written from the root

The steps of an absolute path, written from the root, are fields of the path (`Path.sublist_fields_bare`), so they are no
longer than the path is, and lead where it leads (`FileTree.locate_bare`). What a name in an absolute directory leads to can
therefore be reached by its path from the root (`FileTree.exists?_absolute_child`). A relative path may become too long.
-/

namespace ImportClosure

namespace Path

variable {w p : Path} {name : String}

/-! ## Fields -/

/-- Steps that are written behind the beginning of a path are fields of their own. -/
theorem fields_below_rootText (p : Path) {cs : List Component} (hcs : ∀ c ∈ cs, IsStep c.text) (hne : cs ≠ []) :
    Path.fields ⟨below p.rootText cs⟩ = (Path.fields ⟨p.rootText⟩).dropLast ++ cs.map Component.text := by
  induction cs using List.reverseRecOn with
  | nil => exact absurd rfl hne
  | append_singleton front c ih =>
    have hfront : ∀ c ∈ front, IsStep c.text := fun d hd => hcs d (List.mem_append_left _ hd)
    have hc := hcs c List.mem_concat_self
    have habs := (isCanonical_below hfront (w := p) (isCanonical_rootText p)).1
    have hbelow : (⟨below p.rootText (front ++ [c])⟩ : Path) = Path.child ⟨below p.rootText front⟩ c.text := by
      rw [below, List.foldl_append]
      rfl
    rw [hbelow, fields_child habs hc.1]
    by_cases hnil : front = []
    · subst hnil
      have hroot : (Path.fields ⟨p.rootText⟩).getLast? = some "" := by
        unfold rootText
        split <;> decide
      rw [show (⟨below p.rootText []⟩ : Path) = ⟨p.rootText⟩ from rfl, if_pos hroot]
      rfl
    · have hlast : ((Path.fields ⟨p.rootText⟩).dropLast ++ front.map Component.text).getLast? ≠ some "" := by
        rw [List.getLast?_append_of_ne_nil _ (by simpa using hnil)]
        intro hmem
        obtain ⟨d, hd, htext⟩ := List.mem_map.1 (List.mem_of_getLast? hmem)
        exact absurd (htext ▸ hfront d hd).2 (by decide)
      rw [ih hfront hnil, if_neg hlast, List.map_append, List.append_assoc]
      rfl

/-- How the steps of a path are written from the root: behind one slash or two. -/
theorem fields_bare (h : p.isAbsolute = true) (hne : p.steps ≠ []) :
    p.bare.fields = (Path.fields ⟨p.rootText⟩).dropLast ++ p.steps := by
  have hsteps : ∀ c ∈ p.components.tail, IsStep c.text := fun c hc => isStep_of_mem_steps h (List.mem_map_of_mem hc)
  refine fields_below_rootText p hsteps fun hnil => hne ?_
  rw [steps, hnil, List.map_nil]

/-- These are fields of the path. -/
theorem sublist_fields_bare (h : p.isAbsolute = true) (hne : p.steps ≠ []) : p.bare.fields.Sublist p.fields := by
  obtain ⟨s, rfl⟩ := isAbsolute_iff.1 h
  have hsteps := steps_eq h
  rw [fields_bare h hne, hsteps, fields_root, List.tail_cons]
  unfold rootText
  split
  next htwo =>
    -- the text begins with a second slash, so there is nothing in the second field
    obtain ⟨more, hmore⟩ : ∃ more, s = "/" ++ more := by
      rw [Bool.and_eq_true, Text.startsWith, List.isPrefixOf_iff_prefix] at htwo
      obtain ⟨more, hmore⟩ := htwo.1
      refine ⟨String.ofList more, String.toList_inj.1 ?_⟩
      simpa using hmore.symm
    have hfields : Text.fields '/' s = "" :: Text.fields '/' more := by
      rw [hmore]
      exact fields_root more
    rw [hfields, List.filter_cons_of_neg (by decide)]
    exact (List.filter_sublist.cons_cons "").cons_cons ""
  next => exact List.filter_sublist.cons_cons ""

end Path

namespace FileTree

variable {t : FileTree} {p dir : Path} {place : Place} {name : String} {c : Content}

/-! ## Where they lead -/

/-- The steps of an absolute path, written from the root, lead where the path leads. -/
theorem locate_bare (hp : p.isAbsolute = true) (hne : p.steps ≠ []) (h : t.locate p = .ok place) :
    t.locate p.bare = .ok place := by
  have hsub := Path.sublist_fields_bare hp hne
  obtain ⟨hnul, hsize, _⟩ := (locate_eq_ok hp).1 h
  refine (locate_eq_ok (Path.bare_spec hp).1).2 ⟨fun hmem => ?_, ?_, ?_⟩
  · obtain ⟨f, hf, hin⟩ := Text.exists_mem_fields hmem (show '\x00' ≠ '/' by decide)
    exact hnul (Text.mem_of_mem_fields (hsub.subset hf) hin)
  · have hle : Path.written p.bare.fields ≤ Path.written p.fields := (hsub.map _).sum_le_sum fun _ _ => Nat.zero_le _
    rw [Path.fields, Path.fields, Path.written_fields, Path.written_fields] at hle
    omega
  · have hfollow := foldlM_steps_of_locate hp h
    rw [Path.fields_bare hp hne]
    unfold Path.rootText
    split
    · exact hfollow
    · exact hfollow

/-- What a name in an absolute directory leads to can be reached from the root. -/
theorem exists?_absolute_child (hd : dir.isAbsolute = true) (hn : Path.IsStep name)
    (h : t.exists? (dir.child name) = true) : t.exists? ((dir.child name).absolute t.workDir) = true := by
  have hsteps : (dir.child name).steps ≠ [] := by simp [Path.steps_child hd hn]
  rw [Path.absolute_eq_bare (Path.isAbsolute_child hd name), Path.endsWith_child hd hn, Bool.false_and,
    if_neg Bool.false_ne_true]
  unfold exists? read? at h ⊢
  cases hl : t.locate (dir.child name) with
  | error err => simp [hl] at h
  | ok place =>
    rw [locate_bare (Path.isAbsolute_child hd name) hsteps hl]
    rwa [hl] at h

/-- What the path from the root leads to, if it leads anywhere. -/
theorem read?_absolute (ht : t.IsWellFormed) (h : t.read? p = some c)
    (hex : t.exists? (p.absolute t.workDir) = true) : t.read? (p.absolute t.workDir) = some c := by
  unfold exists? read? at hex
  unfold read? at h ⊢
  cases hl : t.locate p with
  | error err => simp [hl] at h
  | ok place =>
    cases hl' : t.locate (p.absolute t.workDir) with
    | error err => simp [hl'] at hex
    | ok place' =>
      rw [place_eq_of_locate_absolute ht hl hl']
      rwa [hl] at h

theorem isFile_absolute (ht : t.IsWellFormed) (h : t.isFile p = true)
    (hex : t.exists? (p.absolute t.workDir) = true) : t.isFile (p.absolute t.workDir) = true := by
  unfold isFile at h ⊢
  cases hr : t.read? p with
  | none => simp [hr] at h
  | some c =>
    rw [read?_absolute ht hr hex]
    rwa [hr] at h

theorem isDir_absolute (ht : t.IsWellFormed) (h : t.isDir p = true)
    (hex : t.exists? (p.absolute t.workDir) = true) : t.isDir (p.absolute t.workDir) = true := by
  rw [isDir, beq_iff_eq] at h ⊢
  exact read?_absolute ht h hex

end FileTree

end ImportClosure
