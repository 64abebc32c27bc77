import ImportClosure.Proofs.Step
import ImportClosure.Proofs.Subtrees
import ImportClosure.Tree.Matches

/-!
# What matches a filename pattern

Following a pattern starts at the root or in the work directory and goes on by single names, so no path that matches is
written with two slashes at the root (`FileTree.rootText_of_mem_matching`).
-/

namespace ImportClosure

namespace FileGlob

variable {c : Char}

/-- What is left behind a bracket stood behind it before. -/
theorem suffix_of_toBracket {cs inside rest : List Char} (h : toBracket cs = some (inside, rest)) : rest <:+ cs := by
  unfold toBracket at h
  split at h
  · cases h
  next d rest' hdrop =>
    cases h
    exact (List.suffix_cons d rest).trans (hdrop ▸ List.dropWhile_suffix _)

/-- A class asks for no single character, and what is left behind it stood behind its bracket before. -/
theorem of_readClass {cs rest : List Char} {part : Part} (h : readClass cs = some (part, rest)) :
    part ≠ .char c ∧ rest <:+ cs := by
  have hclass : ∀ (make : List Char → Part) (more : List Char), (∀ inside, make inside ≠ .char c) →
      (toBracket more).map (fun x => (make x.1, x.2)) = some (part, rest) → part ≠ .char c ∧ rest <:+ more := by
    intro make more hmake hmap
    obtain ⟨⟨inside, rest'⟩, hbracket, hpart⟩ := Option.map_eq_some_iff.1 hmap
    cases hpart
    exact ⟨hmake inside, suffix_of_toBracket hbracket⟩
  unfold readClass at h
  split at h
  next first cs =>
    obtain ⟨hpart, hrest⟩ := hclass (fun inside => .except (ranges (first :: inside))) cs nofun h
    exact ⟨hpart, hrest.trans ((List.suffix_cons first cs).trans (List.suffix_cons '!' _))⟩
  · cases h
  next first cs _ _ =>
    obtain ⟨hpart, hrest⟩ := hclass (fun inside => .within (ranges (first :: inside))) cs nofun h
    exact ⟨hpart, hrest.trans (List.suffix_cons first cs)⟩
  · cases h

/-- A character that a pattern asks for stands in its text. -/
theorem mem_of_readParts {size fuel : Nat} {front : Option Char} {parts out : List Part} {cs : List Char}
    (h : readParts size fuel front parts cs = .ok out) (hc : .char c ∈ out) : .char c ∈ parts ∨ c ∈ cs := by
  have hstars : ∀ {d : Char} {cs rest : List Char}, cs.dropWhile (· == '*') = rest → c ∈ rest → c ∈ d :: cs :=
    fun hdrop hmem => List.mem_cons_of_mem _ ((List.dropWhile_suffix _).subset (hdrop ▸ hmem))
  fun_induction readParts size fuel front parts cs with
  | case1 | case2 =>
    cases h
    exact Or.inl (List.mem_reverse.1 hc)
  | case3 _ _ _ _ ih => exact (ih h).imp (by simp) (List.mem_cons_of_mem _)
  | case4 _ _ _ _ _ ih => exact (ih h).imp (by simp) (hstars rfl)
  | case5 fuel front parts cs _ _ _ parts' =>
    cases h
    left
    have hmem : .char c ∈ parts' := List.mem_reverse.1 hc
    unfold parts' at hmem
    split at hmem
    · exact hmem
    · simpa using hmem
  | case6 fuel front parts cs _ _ _ parts' rest hdrop ih =>
    rcases ih h with hmem | hmem
    · left
      unfold parts' at hmem
      split at hmem
      · exact hmem
      · simpa using hmem
    · exact Or.inr (hstars hdrop (List.mem_cons_of_mem _ hmem))
  | case7 | case8 | case9 | case11 => cases h
  | case10 _ _ _ _ _ _ hclass ih =>
    obtain ⟨hpart, hrest⟩ := of_readClass (c := c) hclass
    rcases ih h with hmem | hmem
    · exact Or.inl ((List.mem_cons.1 hmem).resolve_left (Ne.symm hpart))
    · exact Or.inr (List.mem_cons_of_mem _ (hrest.subset hmem))
  | case12 _ _ _ _ _ _ _ _ ih =>
    rcases ih h with hmem | hmem
    · rcases List.mem_cons.1 hmem with hd | hmem
      · cases hd
        exact Or.inr List.mem_cons_self
      · exact Or.inl hmem
    · exact Or.inr (List.mem_cons_of_mem _ hmem)

/-- The characters of a step without wildcards are those that it asks for. -/
theorem mem_of_literal? {name : String} {parts : List Part} (h : literal? parts = some name) (hc : c ∈ name.toList) :
    .char c ∈ parts := by
  obtain ⟨cs, hcs, rfl⟩ := Option.map_eq_some_iff.1 h
  rw [String.toList_ofList] at hc
  clear h
  induction parts generalizing cs with
  | nil =>
    cases hcs
    cases hc
  | cons part parts ih =>
    rw [List.mapM_cons] at hcs
    cases part with
    | char d =>
      obtain ⟨ds, hds, hcons⟩ := Option.bind_eq_some_iff.1 hcs
      obtain ⟨more, hmore, hpure⟩ := Option.bind_eq_some_iff.1 hcons
      cases hds
      cases hpure
      rcases List.mem_cons.1 hc with rfl | hc
      · exact List.mem_cons_self
      · exact List.mem_cons_of_mem _ (ih more hmore hc)
    | _ => cases hcs

/-- A step without wildcards holds no slash if the text that it was read from holds none. -/
theorem not_mem_of_literal? {text name : String} {parts : List Part} (htext : '/' ∉ text.toList)
    (h : read text = .ok parts) (hname : literal? parts = some name) : '/' ∉ name.toList := by
  intro hslash
  rcases mem_of_readParts h (mem_of_literal? hname hslash) with hmem | hmem
  · cases hmem
  · exact htext hmem

end FileGlob

/-- The steps of a pattern that have no wildcards are names. -/
def FilePattern.HasNames (steps : List (List FileGlob.Part)) : Prop :=
  ∀ step ∈ steps, ∀ name, FileGlob.literal? step = some name → '/' ∉ name.toList

/-- A pattern that was read starts at the root or in the work directory, and its steps without wildcards are names. -/
theorem FilePattern.of_read {text : String} {p : FilePattern} (h : read text = .ok p) :
    (p.start = ⟨"/"⟩ ∨ p.start = ⟨"."⟩) ∧ HasNames p.steps := by
  unfold read at h
  cases hwhole : FileGlob.read text with
  | error fault => simp [hwhole, bind, Except.bind] at h
  | ok parts =>
    simp only [hwhole, bind, Except.bind] at h
    generalize (if Text.startsWith text "/" = true then String.ofList text.toList.tail else text) = relative at h
    split at h
    · cases h
    next steps hsteps =>
      cases h
      refine ⟨by dsimp only; split <;> simp, fun step hstep name hname => ?_⟩
      have hcases : step = [] ∨ step ∈ steps := by
        dsimp only at hstep
        split at hstep
        · exact Or.inl (List.mem_singleton.1 hstep)
        · exact Or.inr hstep
      rcases hcases with rfl | hstep
      · obtain rfl : "" = name := Option.some.inj hname
        decide
      · obtain ⟨field, hfield, hread⟩ := exists_of_mem_mapM hsteps hstep
        have hslash : '/' ∉ field.toList := by
          unfold stepTexts at hfield
          split at hfield
          next front hfront =>
            have hmem := List.mem_reverse.1 (hfront ▸ List.mem_cons_of_mem "" (List.mem_reverse.1 hfield))
            exact Text.not_mem_of_mem_fields hmem
          next => exact Text.not_mem_of_mem_fields hfield
        exact FileGlob.not_mem_of_literal? hslash hread hname

namespace FileTree

variable {t : FileTree} {p : FilePattern} {fuel : Nat} {steps : List (List FileGlob.Part)} {path q : Path}

/-- A step down begins at the same root. -/
theorem rootText_stepInto {name : String} (h : path.rootText = "/") (hn : '/' ∉ name.toList) :
    (stepInto path name).rootText = "/" := by
  unfold stepInto
  split
  · exact Path.rootText_of_not_mem hn
  · exact Path.rootText_child h hn

/-- The names in a directory, and the two that stand for directories, hold no slash. -/
theorem IsWellFormed.not_mem_of_listed (ht : t.IsWellFormed) {name : String}
    (h : name ∈ (t.list path).toOption.getD []) : '/' ∉ name.toList := by
  cases hl : t.list path with
  | error cause =>
    rw [hl] at h
    cases h
  | ok names =>
    rw [hl] at h
    exact ((ht.names_of_list hl).2 name h).1.1

/-- The names that stand for directories are those of one dot and of two. -/
theorem mem_dotNames {step : List FileGlob.Part} {name : String} (h : name ∈ dotNames step) : name = ".." ∨ name = "." := by
  unfold dotNames at h
  split at h
  · simpa using (List.mem_filter.1 h).1
  · cases h

/-- Following steps of a pattern keeps a property of paths, whatever names they ask for and whatever is listed. -/
structure KeptBySteps (t : FileTree) (P : Path → Prop) (steps : List (List FileGlob.Part)) : Prop where
  literal : ∀ step ∈ steps, ∀ name, FileGlob.literal? step = some name → ∀ path, P path → P (stepInto path name)
  dots : ∀ step ∈ steps, ∀ name ∈ dotNames step, ∀ path, P path → P (path.child name)
  listed : ∀ path name, name ∈ (t.list path).toOption.getD [] → P path → P (stepInto path name)

/-- What all steps keep, fewer steps keep. -/
theorem KeptBySteps.mono {P : Path → Prop} {steps' : List (List FileGlob.Part)} (h : t.KeptBySteps P steps)
    (hsub : steps' ⊆ steps) : t.KeptBySteps P steps' :=
  ⟨fun step hstep => h.literal step (hsub hstep), fun step hstep => h.dots step (hsub hstep), h.listed⟩

/-- With so much fuel, following steps that keep a property leads only to paths that have it, in each of the three ways of
following. -/
structure StaysWithin (t : FileTree) (p : FilePattern) (P : Path → Prop) (fuel : Nat) : Prop where
  below : ∀ steps path, t.KeptBySteps P steps → P path → ∀ q ∈ t.matchesBelow p fuel steps path, P q
  after : ∀ steps path, t.KeptBySteps P steps → P path → ∀ q ∈ t.matchesAfter p fuel steps path, P q
  atEntry : ∀ steps path, t.KeptBySteps P steps → P path → ∀ q ∈ t.matchesAt p fuel steps path, P q

namespace StaysWithin

variable {P : Path → Prop}

/-- With more fuel the matches below a path stay within the property. -/
theorem succ_below (h : t.StaysWithin p P fuel) (hsteps : t.KeptBySteps P steps) (hpath : P path)
    (hq : q ∈ t.matchesBelow p (fuel + 1) steps path) : P q := by
  cases steps with
  | nil =>
    unfold matchesBelow at hq
    cases hq
  | cons step more =>
    have hmore := hsteps.mono (List.subset_cons_self step more)
    unfold matchesBelow at hq
    split at hq
    next name hname =>
      have hnext := hsteps.literal step List.mem_cons_self name hname path hpath
      have hafter : q ∈ t.matchesAfter p fuel more (stepInto path name) := by
        dsimp only at hq
        split at hq
        · split at hq
          · exact hq
          · cases hq
        · split at hq
          · exact hq
          · cases hq
      exact h.after more _ hmore hnext q hafter
    next =>
      split at hq
      · cases hq
      · rcases List.mem_append.1 hq with hq | hq
        · obtain ⟨name, hname, hq⟩ := List.mem_flatMap.1 hq
          exact h.after more _ hmore (hsteps.dots step List.mem_cons_self name hname path hpath) q hq
        · obtain ⟨name, hname, hq⟩ := List.mem_flatMap.1 hq
          exact h.atEntry _ _ hsteps (hsteps.listed path name hname hpath) q hq

/-- With more fuel the matches behind a step stay within the property. -/
theorem succ_after (h : t.StaysWithin p P fuel) (hsteps : t.KeptBySteps P steps) (hpath : P path)
    (hq : q ∈ t.matchesAfter p (fuel + 1) steps path) : P q := by
  unfold matchesAfter at hq
  cases steps with
  | nil =>
    dsimp only at hq
    split at hq
    · rwa [List.mem_singleton.1 hq]
    · cases hq
  | cons step more => exact h.below _ path hsteps hpath q hq

/-- With more fuel the matches at an entry stay within the property. -/
theorem succ_atEntry (h : t.StaysWithin p P fuel) (hsteps : t.KeptBySteps P steps) (hpath : P path)
    (hq : q ∈ t.matchesAt p (fuel + 1) steps path) : P q := by
  unfold matchesAt at hq
  cases steps with
  | nil => cases hq
  | cons step more =>
    have hmore := hsteps.mono (List.subset_cons_self step more)
    -- the steps behind two stars, with and without the stars
    have hrest := hmore.mono (List.dropWhile_suffix isAnyDepth).subset
    have hstars : t.KeptBySteps P (step :: more.dropWhile isAnyDepth) :=
      hsteps.mono (List.cons_subset_cons step (List.dropWhile_suffix _).subset)
    dsimp only at hq
    split at hq
    · rcases List.mem_append.1 hq with hq | hq
      · split at hq
        · split at hq
          · rwa [List.mem_singleton.1 hq]
          · cases hq
        · exact h.atEntry _ path hrest hpath q hq
      · split at hq
        · exact h.below _ path hstars hpath q hq
        · cases hq
    · split at hq
      · exact h.after more path hmore hpath q hq
      · cases hq

end StaysWithin

/-- This holds with any fuel. -/
theorem staysWithin (t : FileTree) (p : FilePattern) (P : Path → Prop) (fuel : Nat) : t.StaysWithin p P fuel := by
  induction fuel with
  | zero =>
    constructor
    · intro _ _ _ _ q hq
      unfold matchesBelow at hq
      cases hq
    · intro _ _ _ _ q hq
      unfold matchesAfter at hq
      cases hq
    · intro _ _ _ _ q hq
      unfold matchesAt at hq
      cases hq
  | succ fuel ih =>
    exact ⟨fun _ _ hs hp _ hq => ih.succ_below hs hp hq, fun _ _ hs hp _ hq => ih.succ_after hs hp hq,
      fun _ _ hs hp _ hq => ih.succ_atEntry hs hp hq⟩

/-- What matches a pattern has the properties that following its steps keeps, if its start has them. -/
theorem of_mem_matching {P : Path → Prop} (hsteps : t.KeptBySteps P p.steps) (hstart : P p.start)
    (hq : q ∈ t.matching p) : P q :=
  (t.staysWithin p P _).below _ _ hsteps hstart q hq

/-- No path that matches a pattern is written with two slashes at the root. -/
theorem rootText_of_mem_matching (ht : t.IsWellFormed) {text : String} (hp : FilePattern.read text = .ok p)
    (hq : q ∈ t.matching p) : q.rootText = "/" := by
  obtain ⟨hstart, hnames⟩ := FilePattern.of_read hp
  have hroot : p.start.rootText = "/" := by rcases hstart with h | h <;> rw [h] <;> decide
  refine of_mem_matching (P := fun path => path.rootText = "/") ⟨?_, ?_, ?_⟩ hroot hq
  · exact fun step hstep name hname path hpath => rootText_stepInto hpath (hnames step hstep name hname)
  · intro step _ name hname path hpath
    refine Path.rootText_child hpath ?_
    rcases mem_dotNames hname with rfl | rfl <;> decide
  · exact fun path name hname hpath => rootText_stepInto hpath (ht.not_mem_of_listed hname)

end FileTree

end ImportClosure
