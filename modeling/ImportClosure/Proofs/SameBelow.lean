import ImportClosure.Proofs.Contained
import ImportClosure.Proofs.Descents
import Mathlib.Data.List.Induction

/-!
# Trees that are the same below a directory

Fields that do not lead out of a directory (`Path.Inside`) lead to the same from there in two trees that hold the same below
it, wherever the directory stands in each (`FileTree.SameBelow`): what a path reads, and the names that it lists, do not
depend on how the directory is called (`FileTree.SameBelow.seen_eq`).
-/

namespace ImportClosure

/-! ## Fields -/

namespace Path

variable {p dir : Path} {f : String} {fs : List String} {n d : Nat}

/-- The path from the root to a place. -/
def ofPlace (place : Place) : Path :=
  down ⟨"/"⟩ place

/-- How far below a directory a field leads from so far below; nothing if it leads out of the directory. -/
def depthStep (depth : Nat) (field : String) : Option Nat :=
  if isIdle field then some depth
  else if field = ".." then (if depth = 0 then none else some (depth - 1))
  else some (depth + 1)

/-- How far below a directory fields lead from there; nothing if one of them leads out. -/
def depth? (fs : List String) : Option Nat :=
  fs.foldlM depthStep 0

/-- Whether a field is a step that leads down. -/
def isDown (field : String) : Bool :=
  !isIdle field && field != ".."

/-- How many fields do not lead down. -/
def turns (fs : List String) : Nat :=
  fs.countP fun field => !isDown field

/-- How many bytes fields take with a slash in front of each. -/
def written (fs : List String) : Nat :=
  (fs.map fun field => field.utf8ByteSize + 1).sum

/-- Fields that do not lead out of a directory, with so many turns at most. -/
structure Inside (n : Nat) (fs : List String) : Prop where
  slashless : ∀ f ∈ fs, '/' ∉ f.toList
  stays : (depth? fs).isSome = true
  turns_le : turns fs ≤ n

theorem depth?_concat (fs : List String) (f : String) : depth? (fs ++ [f]) = (depth? fs).bind fun d => depthStep d f := by
  rw [depth?, List.foldlM_append]
  refine congrArg (Option.bind _) (funext fun d => ?_)
  rw [List.foldlM_cons]
  cases depthStep d f <;> rfl

theorem turns_concat (fs : List String) (f : String) : turns (fs ++ [f]) = turns fs + if isDown f then 0 else 1 := by
  cases h : isDown f <;> simp [turns, List.countP_append, h]

theorem written_concat (fs : List String) (f : String) : written (fs ++ [f]) = written fs + (f.utf8ByteSize + 1) := by
  simp [written]

theorem isDown_iff : isDown f = true ↔ isIdle f = false ∧ f ≠ ".." := by
  simp [isDown]

/-- A turn is nothing, a dot or two dots. -/
theorem size_le_of_isDown_eq_false (h : isDown f = false) : f.utf8ByteSize ≤ 2 := by
  rw [isDown, Bool.and_eq_false_iff, Bool.not_eq_false', isIdle, Bool.or_eq_true, beq_iff_eq, beq_iff_eq,
    bne_eq_false_iff_eq] at h
  rcases h with (rfl | rfl) | rfl <;> decide

theorem depthStep_of_isDown (h : isDown f = true) (d : Nat) : depthStep d f = some (d + 1) := by
  obtain ⟨hidle, hne⟩ := isDown_iff.1 h
  simp [depthStep, hidle, hne]

theorem Inside.exists_depth? (h : Inside n fs) : ∃ d, depth? fs = some d :=
  Option.isSome_iff_exists.1 h.stays

/-- A step down goes on inside. -/
theorem Inside.concat (h : Inside n fs) (hf : IsStep f ∧ f ≠ "..") : Inside n (fs ++ [f]) := by
  have hdown : isDown f = true := isDown_iff.2 ⟨hf.1.2, hf.2⟩
  obtain ⟨d, hd⟩ := h.exists_depth?
  refine ⟨fun g hg => ?_, ?_, ?_⟩
  · rcases List.mem_append.1 hg with hg | hg
    · exact h.slashless g hg
    · exact List.mem_singleton.1 hg ▸ hf.1.1
  · rw [depth?_concat, hd, Option.bind_some, depthStep_of_isDown hdown]
    rfl
  · rw [turns_concat, hdown, if_pos rfl, Nat.add_zero]
    exact h.turns_le

/-- What is in front of a field is inside too. -/
theorem Inside.of_concat (h : Inside n (fs ++ [f])) : Inside n fs := by
  refine ⟨fun g hg => h.slashless g (List.mem_append_left _ hg), ?_, ?_⟩
  · have hstays := h.stays
    rw [depth?_concat] at hstays
    cases hd : depth? fs with
    | none => rw [hd] at hstays; cases hstays
    | some d => rfl
  · have hturns := h.turns_le
    rw [turns_concat] at hturns
    omega

/-! ## How far it is written -/

theorem text_child (hp : p.text ≠ "") (hf : '/' ∉ f.toList) :
    (p.child f).text = p.text ++ (if Text.endsWith p.text "/" then "" else "/") ++ f := by
  have hne : (p.text == "") = false := by simpa using hp
  rw [child, join, isAbsolute_of_not_mem hf, if_neg (by decide), hne, Bool.false_or]
  split <;> simp

theorem isAbsolute_down (h : dir.isAbsolute = true) (fs : List String) : (dir.down fs).isAbsolute = true := by
  induction fs using List.reverseRecOn with
  | nil => exact h
  | append_singleton fs f ih =>
    rw [down_concat]
    exact isAbsolute_child ih f

/-- The path of a directory stands in front of the paths below it. -/
theorem exists_text_down (h : dir.isAbsolute = true) (hfs : ∀ f ∈ fs, '/' ∉ f.toList) :
    ∃ s, (dir.down fs).text = dir.text ++ s := by
  induction fs using List.reverseRecOn with
  | nil => exact ⟨"", by simp [down]⟩
  | append_singleton fs f ih =>
    obtain ⟨s, hs⟩ := ih fun g hg => hfs g (List.mem_append_left _ hg)
    rw [down_concat, text_child (ModuleFile.text_ne_nil_of_isAbsolute (isAbsolute_down h fs)) (hfs f List.mem_concat_self),
      hs, String.append_assoc, String.append_assoc]
    exact ⟨_, rfl⟩

theorem size_down_le (h : dir.isAbsolute = true) (hfs : ∀ f ∈ fs, '/' ∉ f.toList) :
    (dir.down fs).text.utf8ByteSize ≤ dir.text.utf8ByteSize + written fs := by
  induction fs using List.reverseRecOn with
  | nil => simp [down]
  | append_singleton fs f ih =>
    have hfront := ih fun g hg => hfs g (List.mem_append_left _ hg)
    have hslash : (if Text.endsWith (dir.down fs).text "/" then "" else "/").utf8ByteSize ≤ 1 := by
      split <;> decide
    rw [down_concat, text_child (ModuleFile.text_ne_nil_of_isAbsolute (isAbsolute_down h fs))
      (hfs f List.mem_concat_self), String.utf8ByteSize_append, String.utf8ByteSize_append, written_concat]
    omega

/-- Apart from slashes, below a directory there stands what stands in its path and in the fields. -/
theorem mem_text_down {c : Char} (hc : c ≠ '/') (h : dir.isAbsolute = true) (hfs : ∀ f ∈ fs, '/' ∉ f.toList) :
    c ∈ (dir.down fs).text.toList ↔ c ∈ dir.text.toList ∨ ∃ f ∈ fs, c ∈ f.toList := by
  induction fs using List.reverseRecOn with
  | nil => simp [down]
  | append_singleton fs f ih =>
    have hfront := ih fun g hg => hfs g (List.mem_append_left _ hg)
    have hslash : c ∉ (if Text.endsWith (dir.down fs).text "/" then "" else "/").toList := by
      split <;> simp [hc]
    rw [down_concat, text_child (ModuleFile.text_ne_nil_of_isAbsolute (isAbsolute_down h fs))
      (hfs f List.mem_concat_self)]
    simp only [String.toList_append, List.mem_append, hslash, or_false, hfront, List.mem_singleton, or_and_right, exists_or,
      exists_eq_left, or_assoc]

/-- What the fields of a text take is what the text takes. -/
theorem written_fields (s : String) : written (Text.fields '/' s) = s.utf8ByteSize + 1 := by
  have hsplit : ∀ cs : List Char, written ((Text.split '/' cs).map String.ofList) = (String.ofList cs).utf8ByteSize + 1 := by
    intro cs
    induction cs with
    | nil => rfl
    | cons c cs ih =>
      rw [String.ofList_cons, String.utf8ByteSize_append, String.utf8ByteSize_singleton]
      unfold Text.split
      split
      next h =>
        subst h
        rw [written, List.map_cons, List.map_cons, List.sum_cons, ← written, ih,
          show (String.ofList []).utf8ByteSize = 0 from rfl, show '/'.utf8Size = 1 from rfl]
        omega
      next h =>
        cases hs : Text.split '/' cs with
        | nil => exact absurd hs (Text.split_ne_nil '/' cs)
        | cons first more =>
          rw [hs, written, List.map_cons, List.map_cons, List.sum_cons] at ih
          rw [written, List.map_cons, List.map_cons, List.sum_cons, String.ofList_cons, String.utf8ByteSize_append,
            String.utf8ByteSize_singleton]
          omega
  rw [Text.fields, hsplit, String.ofList_toList]

theorem fields_ofPlace (hb : ∀ name ∈ b, IsStep name ∧ name ≠ "..") (hne : b ≠ []) : (ofPlace b).fields = "" :: b := by
  induction b using List.reverseRecOn with
  | nil => exact absurd rfl hne
  | append_singleton front x ih =>
    have hx := hb x List.mem_concat_self
    rw [ofPlace, down_concat, fields_child (isAbsolute_down (by decide) front) hx.1.1]
    by_cases hfront : front = []
    · subst hfront
      rfl
    · have hfields : (down ⟨"/"⟩ front).fields = "" :: front :=
        ih (fun name hname => hb name (List.mem_append_left _ hname)) hfront
      have hlast : ("" :: front).getLast? ≠ some "" := by
        rw [List.getLast?_cons_of_ne_nil hfront]
        intro hmem
        exact absurd (hb "" (List.mem_append_left _ (List.mem_of_getLast? hmem))).1.2 (by decide)
      rw [hfields, if_neg hlast, List.cons_append]

/-- How a name ends is seen behind a directory as well. -/
theorem endsWith_child_eq {x suffix : String} (hdir : dir.text ≠ "") (hx : '/' ∉ x.toList)
    (hsuffix : '/' ∉ suffix.toList) : Text.endsWith (dir.child x).text suffix = Text.endsWith x suffix := by
  obtain ⟨front, hfront⟩ : ∃ front, (dir.child x).text.toList = front ++ '/' :: x.toList := by
    rw [text_child hdir hx, String.toList_append, String.toList_append]
    split
    next hend =>
      obtain ⟨front, hslash⟩ := List.isSuffixOf_iff_suffix.1 hend
      exact ⟨front, by simp [← hslash]⟩
    next => exact ⟨dir.text.toList, by simp⟩
  rw [Bool.eq_iff_iff, Text.endsWith, Text.endsWith, List.isSuffixOf_iff_suffix, List.isSuffixOf_iff_suffix, hfront]
  refine ⟨fun h => ?_, fun h => (h.trans (List.suffix_cons '/' _)).trans (List.suffix_append front _)⟩
  rcases List.suffix_or_suffix_of_suffix h (List.suffix_append front _) with h | h
  · refine (List.suffix_cons_iff.1 h).resolve_left fun heq => hsuffix ?_
    rw [heq]
    exact List.mem_cons_self
  · exact absurd (h.subset List.mem_cons_self) hsuffix

end Path

/-! ## One directory -/

namespace FileTree

open ImportClosure.Path

variable {t t' : FileTree} {b b' rest place : Place} {n d : Nat} {p : Path} {f : String} {fs : List String}

/-- A field that does nothing makes no difference in front of another. -/
theorem follow_bind_follow (hg : Path.isIdle f = true) (place : Place) (g : String) :
    (t.follow place f >>= fun place => t.follow place g) = t.follow place g := by
  cases hc : t.content? place with
  | none => simp [follow, hc, bind, Except.bind]
  | some c => cases c <;> simp [follow, hc, hg, bind, Except.bind]

/-- A field behind a path is followed from where the path leads. -/
theorem foldlM_follow_child (hp : p.isAbsolute = true) (hf : '/' ∉ f.toList) :
    (p.child f).fields.tail.foldlM t.follow [] = p.fields.tail.foldlM t.follow [] >>= fun place => t.follow place f := by
  obtain ⟨fs, hne, hfs⟩ := exists_fields_of_isAbsolute hp
  rw [fields_child hp hf, hfs]
  split
  next hlast =>
    -- the slash at the end of the path goes
    rw [List.getLast?_cons_of_ne_nil hne] at hlast
    obtain ⟨front, rfl⟩ := List.getLast?_eq_some_iff.1 hlast
    rw [← List.cons_append, List.dropLast_concat]
    simp only [List.cons_append, List.tail_cons, List.foldlM_append, List.foldlM_cons, List.foldlM_nil, bind_pure, bind_assoc]
    refine congrArg _ (funext fun place => ?_)
    exact (follow_bind_follow (t := t) (f := "") (by decide) place f).symm
  next =>
    simp only [List.cons_append, List.tail_cons, List.foldlM_append, List.foldlM_cons, List.foldlM_nil, bind_pure]

/-- A path that is followed from a directory by fields, and is not longer than they make it. -/
structure LeadsBelow (t : FileTree) (b : Place) (fs : List String) (p : Path) : Prop where
  isAbsolute : p.isAbsolute = true
  size_le : p.text.utf8ByteSize ≤ (ofPlace b).text.utf8ByteSize + written fs
  nul : '\x00' ∈ p.text.toList ↔ ∃ f ∈ fs, '\x00' ∈ f.toList
  follow : p.fields.tail.foldlM t.follow [] = fs.foldlM t.follow b

/-- Where a path below a directory leads. -/
theorem LeadsBelow.locate_iff (h : t.LeadsBelow b fs p) : t.locate p = .ok place ↔
    (∀ f ∈ fs, '\x00' ∉ f.toList) ∧ p.text.utf8ByteSize ≤ maxPathSize ∧ fs.foldlM t.follow b = .ok place := by
  rw [locate_eq_ok h.isAbsolute, h.nul, h.follow]
  simp

/-- A place that a tree has a directory at, not the root. -/
structure HasDirectory (t : FileTree) (b : Place) : Prop where
  wellFormed : t.IsWellFormed
  ne_nil : b ≠ []
  steps : ∀ name ∈ b, IsStep name ∧ name ≠ ".."
  isDir : t.isDir (.ofPlace b) = true

namespace HasDirectory

theorem isAbsolute (b : Place) : (ofPlace b).isAbsolute = true :=
  isAbsolute_down (by decide) b

theorem components (h : t.HasDirectory b) : (ofPlace b).components = .root :: b.map .name :=
  components_down (by decide) h.steps

theorem locate_base (h : t.HasDirectory b) : t.locate (ofPlace b) = .ok b := by
  have hread := h.isDir
  unfold FileTree.isDir read? at hread
  cases hl : t.locate (ofPlace b) with
  | error cause => rw [hl] at hread; cases hread
  | ok place =>
    have hsteps := foldlM_steps_of_locate (isAbsolute b) hl
    rw [Path.steps, h.components, List.tail_cons, List.map_map, show Component.text ∘ Component.name = id from rfl,
      List.map_id] at hsteps
    have hplace := eq_of_foldlM_follow (fun hmem => (h.steps _ hmem).2 rfl) hsteps
    rw [hplace, List.nil_append, List.filter_eq_self.2 fun name hname => by simp [(h.steps name hname).1.2]]

theorem content_base (h : t.HasDirectory b) : t.content? b = some .directory := by
  have hread := h.isDir
  unfold FileTree.isDir read? at hread
  rw [h.locate_base] at hread
  simpa using hread

theorem nul_not_mem (h : t.HasDirectory b) : '\x00' ∉ (ofPlace b).text.toList :=
  ((locate_eq_ok (isAbsolute b)).1 h.locate_base).1

/-- Fields that are followed one by one below a directory lead as its path with the fields behind it does. -/
theorem leadsBelow_down (h : t.HasDirectory b) (hfs : ∀ f ∈ fs, '/' ∉ f.toList) :
    t.LeadsBelow b fs ((ofPlace b).down fs) where
  isAbsolute := isAbsolute_down (isAbsolute b) fs
  size_le := size_down_le (isAbsolute b) hfs
  nul := by simp [mem_text_down (c := '\x00') (by decide) (isAbsolute b) hfs, h.nul_not_mem]
  follow := by
    induction fs using List.reverseRecOn with
    | nil => exact ((locate_eq_ok (isAbsolute b)).1 h.locate_base).2.2
    | append_singleton fs f ih =>
      rw [down_concat, foldlM_follow_child (isAbsolute_down (isAbsolute b) fs) (hfs f List.mem_concat_self),
        ih fun g hg => hfs g (List.mem_append_left _ hg)]
      simp only [List.foldlM_append, List.foldlM_cons, List.foldlM_nil, bind_pure]

/-! ### Paths behind it -/

section Join

variable {q : Path} (h : t.HasDirectory b)
include h

theorem text_join (hq : q.isAbsolute = false) : ((ofPlace b).join q).text = (ofPlace b).text ++ "/" ++ q.text := by
  have hne : ((ofPlace b).text == "") = false := by simpa using ModuleFile.text_ne_nil_of_isAbsolute (isAbsolute b)
  have hend : Text.endsWith (ofPlace b).text "/" = false := by
    obtain ⟨front, x, hx⟩ := (List.eq_nil_or_concat b).resolve_left h.ne_nil
    rw [List.concat_eq_append] at hx
    have hstep := (h.steps x (hx ▸ List.mem_concat_self)).1
    rw [hx, ofPlace, down_concat]
    exact endsWith_child (isAbsolute_down (by decide) front) hstep
  simp [Path.join, hq, hne, hend]

theorem fields_join (hq : q.isAbsolute = false) : ((ofPlace b).join q).fields = "" :: (b ++ q.fields) := by
  rw [Path.fields, h.text_join hq, Text.fields_append rfl]
  exact congrArg (· ++ q.fields) (fields_ofPlace h.steps h.ne_nil)

/-- A relative path leads from the directory where its fields lead. -/
theorem leadsBelow_join (hq : q.isAbsolute = false) : t.LeadsBelow b q.fields ((ofPlace b).join q) where
  isAbsolute := isAbsolute_join (isAbsolute b)
  size_le := by
    rw [h.text_join hq, Path.fields, written_fields, String.utf8ByteSize_append, String.utf8ByteSize_append,
      show "/".utf8ByteSize = 1 from rfl]
    omega
  nul := by
    rw [h.text_join hq, String.toList_append, String.toList_append, List.mem_append, List.mem_append]
    constructor
    · rintro ((hmem | hmem) | hmem)
      · exact absurd hmem h.nul_not_mem
      · exact absurd hmem (by decide)
      · exact Text.exists_mem_fields hmem (by decide)
    · rintro ⟨f, hf, hmem⟩
      exact Or.inr (Text.mem_of_mem_fields hf hmem)
  follow := by
    have hbase := ((locate_eq_ok (isAbsolute b)).1 h.locate_base).2.2
    rw [fields_ofPlace h.steps h.ne_nil, List.tail_cons] at hbase
    rw [h.fields_join hq, List.tail_cons, List.foldlM_append, hbase]
    rfl

end Join

end HasDirectory

/-- Where no path leads to anything, nothing is read or listed. -/
theorem unseen_of_locate (h : ∀ place, t.locate p = .ok place → t.content? place = none) :
    t.read? p = none ∧ (t.list p).toOption = none := by
  unfold read? list
  cases hl : t.locate p with
  | error cause => exact ⟨rfl, rfl⟩
  | ok place => simp [bind, Except.bind, h place hl, Except.toOption]

/-! ## The same below two directories -/

/-- What stands below a directory of one tree stands below a directory of another, and both leave room for the paths that
lead there, also if so many of their fields do not lead down. -/
structure SameBelow (t t' : FileTree) (b b' : Place) (n : Nat) : Prop where
  base : t.HasDirectory b
  base' : t'.HasDirectory b'
  content_eq : ∀ rest, t.content? (b ++ rest) = t'.content? (b' ++ rest)
  room : ∃ span, (∀ rest, (t.content? (b ++ rest)).isSome = true → written rest ≤ span) ∧
    (ofPlace b).text.utf8ByteSize + span + n * (span + 3) ≤ maxPathSize ∧
    (ofPlace b').text.utf8ByteSize + span + n * (span + 3) ≤ maxPathSize

namespace SameBelow

variable (h : t.SameBelow t' b b' n)
include h

/-- A field leads from a place to the same in both trees, unless it leads out. -/
theorem follow_eq (hd : depthStep rest.length f = some d) :
    (∃ cause, t.follow (b ++ rest) f = .error cause ∧ t'.follow (b' ++ rest) f = .error cause) ∨
      ∃ rest', t.follow (b ++ rest) f = .ok (b ++ rest') ∧ t'.follow (b' ++ rest) f = .ok (b' ++ rest') ∧
        rest'.length = d ∧ (isDown f = true → rest' = rest ++ [f] ∧ (t.content? (b ++ rest')).isSome = true) := by
  unfold follow
  rw [← h.content_eq]
  cases hc : t.content? (b ++ rest) with
  | none => exact Or.inl ⟨_, rfl, rfl⟩
  | some c =>
    cases c with
    | text | unreadable => exact Or.inl ⟨_, rfl, rfl⟩
    | directory =>
      dsimp only
      by_cases hidle : isIdle f = true
      · simp only [depthStep, if_pos hidle, Option.some.injEq] at hd
        refine Or.inr ⟨rest, by simp [hidle], by simp [hidle], hd, fun hdown => ?_⟩
        simp [(isDown_iff.1 hdown).1] at hidle
      by_cases hup : f = ".."
      · subst hup
        have hpos : rest.length ≠ 0 := fun hzero => by simp [depthStep, hidle, hzero] at hd
        have hne : rest ≠ [] := fun hnil => hpos (by rw [hnil]; rfl)
        simp only [depthStep, if_neg hidle, if_true, if_neg hpos, Option.some.injEq] at hd
        refine Or.inr ⟨rest.dropLast, ?_, ?_, by rw [List.length_dropLast, hd], fun hdown => absurd rfl (isDown_iff.1 hdown).2⟩
        · simp [hidle, List.dropLast_append_of_ne_nil hne]
        · simp [hidle, List.dropLast_append_of_ne_nil hne]
      simp only [depthStep, if_neg hidle, if_neg hup, Option.some.injEq] at hd
      simp only [if_neg hidle, beq_iff_eq, hup, if_false, List.append_assoc, ← h.content_eq]
      by_cases hlong : f.utf8ByteSize > maxNameSize
      · exact Or.inl ⟨_, if_pos hlong, if_pos hlong⟩
      rw [if_neg hlong, if_neg hlong]
      by_cases hthere : (t.content? (b ++ (rest ++ [f]))).isSome = true
      · refine Or.inr ⟨rest ++ [f], if_pos hthere, if_pos hthere, ?_, fun _ => ⟨rfl, hthere⟩⟩
        rw [List.length_append, ← hd]
        rfl
      · exact Or.inl ⟨_, if_neg hthere, if_neg hthere⟩

/-- Fields that stay inside lead to the same in both trees. Each turn makes the way there longer by what it passes over. -/
theorem foldlM_follow_eq {span : Nat} (hspan : ∀ rest, (t.content? (b ++ rest)).isSome = true → written rest ≤ span)
    (hfs : Inside n fs) :
    (∃ cause, fs.foldlM t.follow b = .error cause ∧ fs.foldlM t'.follow b' = .error cause) ∨
      ∃ rest, fs.foldlM t.follow b = .ok (b ++ rest) ∧ fs.foldlM t'.follow b' = .ok (b' ++ rest) ∧
        depth? fs = some rest.length ∧ written fs ≤ written rest + turns fs * (span + 3) := by
  induction fs using List.reverseRecOn with
  | nil => exact Or.inr ⟨[], by simp [pure, Except.pure], by simp [pure, Except.pure], rfl, Nat.zero_le _⟩
  | append_singleton fs f ih =>
    simp only [List.foldlM_append, List.foldlM_cons, List.foldlM_nil, bind_pure]
    rcases ih hfs.of_concat with ⟨cause, hfold, hfold'⟩ | ⟨rest, hfold, hfold', hdepth, hwritten⟩
    · exact Or.inl ⟨cause, by rw [hfold]; rfl, by rw [hfold']; rfl⟩
    obtain ⟨d, hd⟩ := hfs.exists_depth?
    have hstep : depthStep rest.length f = some d := by rwa [depth?_concat, hdepth, Option.bind_some] at hd
    rw [hfold, hfold', hd]
    rcases h.follow_eq hstep with ⟨cause, hf, hf'⟩ | ⟨rest', hf, hf', hlength, hdown⟩
    · exact Or.inl ⟨cause, hf, hf'⟩
    refine Or.inr ⟨rest', hf, hf', congrArg some hlength.symm, ?_⟩
    rw [written_concat, turns_concat]
    cases hdir : isDown f with
    | true =>
      rw [(hdown hdir).1, written_concat]
      simp only [if_true, Nat.add_zero]
      omega
    | false =>
      -- a turn is written with three bytes at most, and what was passed over before it is no longer than the span
      have hrest : written rest ≤ span := hspan rest <| by rw [(follow_eq_ok hf).1]; rfl
      have hsize : f.utf8ByteSize ≤ 2 := size_le_of_isDown_eq_false hdir
      rw [if_neg (by decide), Nat.succ_mul]
      omega

/-- The same names are in the same directory below the two. -/
theorem childNames_perm (rest : Place) : (t.childNames (b ++ rest)).Perm (t'.childNames (b' ++ rest)) := by
  have hmem : ∀ {tree : FileTree} {place : Place} (name : String),
      place ++ [name] ∈ tree.entries.map Prod.fst ↔ (tree.content? (place ++ [name])).isSome = true := by
    intro tree place name
    rw [content?, if_neg (by simp), Option.isSome_iff_ne_none, Ne, List.lookup_eq_none_iff]
    simp
  refine (List.perm_ext_iff_of_nodup (h.base.wellFormed.nodup_childNames _) (h.base'.wellFormed.nodup_childNames _)).2 ?_
  intro name
  rw [mem_childNames, mem_childNames, hmem, hmem, List.append_assoc, List.append_assoc, h.content_eq]

theorem sort_childNames_eq (rest : Place) :
    ((t.childNames (b ++ rest)).mergeSort fun x y => decide (x ≤ y)) =
      (t'.childNames (b' ++ rest)).mergeSort fun x y => decide (x ≤ y) := by
  have hsorted := fun names : List String => @List.pairwise_mergeSort _ (fun x y => decide (x ≤ y))
    (fun x y z hxy hyz => by simpa using String.le_trans (of_decide_eq_true hxy) (of_decide_eq_true hyz))
    (fun x y => by simpa using String.le_total x y) names
  refine List.Perm.eq_of_pairwise (fun x y _ _ hxy hyx => ?_) (hsorted _) (hsorted _) ?_
  · exact String.le_antisymm (of_decide_eq_true hxy) (of_decide_eq_true hyx)
  · exact (List.mergeSort_perm _ _).trans ((h.childNames_perm rest).trans (List.mergeSort_perm _ _).symm)

/-- What a path below the directory reads, and the names that it lists, do not depend on where the directory stands. -/
theorem seen_eq {p p' : Path} (hp : t.LeadsBelow b fs p) (hp' : t'.LeadsBelow b' fs p') (hfs : Inside n fs) :
    t.read? p = t'.read? p' ∧ (t.list p).toOption = (t'.list p').toOption := by
  obtain ⟨span, hspan, hroom, hroom'⟩ := h.room
  have hfold := h.foldlM_follow_eq hspan hfs
  by_cases hseen : ∃ rest, fs.foldlM t.follow b = .ok (b ++ rest) ∧ (∀ f ∈ fs, '\x00' ∉ f.toList) ∧
      (t.content? (b ++ rest)).isSome = true
  · -- the way to what stands there has room below both directories
    obtain ⟨rest, hok, hnul, hthere⟩ := hseen
    obtain ⟨_, herr, _⟩ | ⟨rest', hok', hsame, _, hwritten⟩ := hfold
    · cases hok.symm.trans herr
    obtain rfl : rest = rest' := List.append_cancel_left (Except.ok.inj (hok.symm.trans hok'))
    have hle : written fs ≤ span + n * (span + 3) :=
      hwritten.trans (Nat.add_le_add (hspan rest hthere) (Nat.mul_le_mul_right _ hfs.turns_le))
    have hsize := hp.size_le
    have hsize' := hp'.size_le
    have hl := hp.locate_iff.2 ⟨hnul, by omega, hok⟩
    have hl' := hp'.locate_iff.2 ⟨hnul, by omega, hsame⟩
    simp only [read?, list, hl, hl', bind, Except.bind, ← h.content_eq, sort_childNames_eq h rest, true_and]
  · have hnone : ∀ place, t.locate p = .ok place → t.content? place = none := by
      intro place hl
      obtain ⟨hnul, _, hok⟩ := hp.locate_iff.1 hl
      obtain ⟨_, herr, _⟩ | ⟨rest, hok', _⟩ := hfold
      · cases hok.symm.trans herr
      · cases hok.symm.trans hok'
        exact Option.not_isSome_iff_eq_none.1 fun hthere => hseen ⟨rest, hok', hnul, hthere⟩
    have hnone' : ∀ place, t'.locate p' = .ok place → t'.content? place = none := by
      intro place hl
      obtain ⟨hnul, _, hok⟩ := hp'.locate_iff.1 hl
      obtain ⟨_, _, herr⟩ | ⟨rest, hok', hsame, _⟩ := hfold
      · cases hok.symm.trans herr
      · cases hok.symm.trans hsame
        rw [← h.content_eq]
        exact Option.not_isSome_iff_eq_none.1 fun hthere => hseen ⟨rest, hok', hnul, hthere⟩
    obtain ⟨hread, hlist⟩ := unseen_of_locate hnone
    obtain ⟨hread', hlist'⟩ := unseen_of_locate hnone'
    exact ⟨hread.trans hread'.symm, hlist.trans hlist'.symm⟩

theorem seen_down_eq (hfs : Inside n fs) :
    t.read? ((ofPlace b).down fs) = t'.read? ((ofPlace b').down fs) ∧
      (t.list ((ofPlace b).down fs)).toOption = (t'.list ((ofPlace b').down fs)).toOption :=
  h.seen_eq (h.base.leadsBelow_down hfs.slashless) (h.base'.leadsBelow_down hfs.slashless) hfs

/-- Fields that lead to a place below the directory lead as far down as the place is. -/
theorem exists_of_locate {place : Place} (hfs : Inside n fs) (hl : t.locate ((ofPlace b).down fs) = .ok place) :
    ∃ rest, place = b ++ rest ∧ depth? fs = some rest.length := by
  obtain ⟨span, hspan, _⟩ := h.room
  have hok := ((h.base.leadsBelow_down hfs.slashless).locate_iff.1 hl).2.2
  obtain ⟨_, herr, _⟩ | ⟨rest, hok', _, hdepth, _⟩ := h.foldlM_follow_eq hspan hfs
  · cases hok.symm.trans herr
  · exact ⟨rest, Except.ok.inj (hok.symm.trans hok'), hdepth⟩

/-- The last of the fields that lead to a file is a step. -/
theorem exists_concat_of_isFile (hfs : Inside n fs) (hfile : t.isFile ((ofPlace b).down fs) = true) :
    ∃ front x, fs = front ++ [x] ∧ IsStep x := by
  unfold isFile read? at hfile
  cases hl : t.locate ((ofPlace b).down fs) with
  | error cause =>
    rw [hl] at hfile
    cases hfile
  | ok place =>
    rw [hl] at hfile
    have hdir : t.content? place ≠ some .directory := fun hdir => by simp [hdir] at hfile
    have hok := ((h.base.leadsBelow_down hfs.slashless).locate_iff.1 hl).2.2
    obtain rfl | ⟨front, x, hconcat⟩ := List.eq_nil_or_concat fs
    · cases hok
      exact absurd h.base.content_base hdir
    · rw [List.concat_eq_append] at hconcat
      subst hconcat
      obtain ⟨above, _, hlast⟩ := foldlM_follow_concat.1 hok
      refine ⟨front, x, rfl, hfs.slashless x List.mem_concat_self, ?_⟩
      -- a field that does nothing is followed from a directory and stays there
      rw [← Bool.not_eq_true]
      intro hidle
      obtain ⟨hcontent, hsame, _⟩ := follow_eq_ok hlast
      exact hdir (hsame hidle ▸ hcontent)

end SameBelow

end FileTree

end ImportClosure
