import ImportClosure.Proofs.Counterparts
import ImportClosure.Proofs.ReadBelow

/-!
# Following patterns below a directory

A pattern is followed below a directory alike wherever the directory stands (`FileTree.SameBelow.matching_below`), unless its
steps lead out (`FilePattern.StaysBelow`). Nor do its fields, then (`FilePattern.IsLocal.inside`).
-/

namespace ImportClosure

open ImportClosure.Path

/-! ## Steps that do not lead out -/

namespace FileTree

/-- Whether a step may lead up. -/
def leadsUp (step : List FileGlob.Part) : Bool :=
  FileGlob.literal? step == some ".." || (dotNames step).contains ".."

/-- Whether a step may stay where it is. -/
def rests (step : List FileGlob.Part) : Bool :=
  FileGlob.literal? step == some "" || FileGlob.literal? step == some "." || (dotNames step).contains "." || isAnyDepth step

end FileTree

namespace FilePattern

open FileTree

variable {step : List FileGlob.Part} {more steps : List (List FileGlob.Part)} {d d' e n : Nat} {fs : List String} {name : String}

/-- How far below a directory a step leads at least from so far below; nothing if it may lead out of the directory. -/
def floorStep (depth : Nat) (step : List FileGlob.Part) : Option Nat :=
  if leadsUp step then (if depth = 0 then none else some (depth - 1))
  else if rests step then some depth
  else some (depth + 1)

/-- How far below a directory steps lead at least from so far below. -/
def floor? (depth : Nat) (steps : List (List FileGlob.Part)) : Option Nat :=
  steps.foldlM floorStep depth

/-- Steps that do not lead out of the directory that they are followed from. -/
def StaysBelow (steps : List (List FileGlob.Part)) : Prop :=
  (floor? 0 steps).isSome = true

instance (steps : List (List FileGlob.Part)) : Decidable (StaysBelow steps) :=
  inferInstanceAs (Decidable (_ = true))

/-- From further down a step leads at least as far down. -/
theorem floorStep_mono (h : floorStep d step = some e) (hle : d ≤ d') : ∃ e', floorStep d' step = some e' ∧ e ≤ e' := by
  unfold floorStep at h ⊢
  by_cases hup : leadsUp step = true
  · rw [if_pos hup] at h ⊢
    split at h
    · cases h
    · cases h
      exact ⟨d' - 1, if_neg (by omega), by omega⟩
  · rw [if_neg hup] at h ⊢
    split at h
    next hrests =>
      cases h
      exact ⟨d', if_pos hrests, hle⟩
    next hrests =>
      cases h
      exact ⟨d' + 1, if_neg hrests, by omega⟩

/-- A step leads at most one level down, and upwards only from below the directory. -/
theorem floorStep_le (h : floorStep d step = some e) :
    e ≤ d + 1 ∧ (leadsUp step = true → d ≠ 0 ∧ e = d - 1) ∧ (rests step = true → e ≤ d) := by
  unfold floorStep at h
  split at h
  next hup =>
    split at h
    · cases h
    next hd =>
      cases h
      exact ⟨by omega, fun _ => ⟨hd, rfl⟩, fun _ => by omega⟩
  next hup =>
    split at h
    next hrests =>
      cases h
      exact ⟨by omega, fun h => absurd h hup, fun _ => Nat.le_refl _⟩
    next hrests =>
      cases h
      exact ⟨Nat.le_refl _, fun h => absurd h hup, fun h => absurd h hrests⟩

/-- Steps stay below if the first does, and the others from where it leads. -/
theorem isSome_floor?_cons : (floor? d (step :: more)).isSome = true ↔
    ∃ e, floorStep d step = some e ∧ (floor? e more).isSome = true := by
  rw [floor?, List.foldlM_cons]
  cases floorStep d step <;> simp [floor?]

/-- Steps that stay below a directory from some depth do so from further down. -/
theorem isSome_floor?_mono (h : (floor? d steps).isSome = true) (hle : d ≤ d') : (floor? d' steps).isSome = true := by
  induction steps generalizing d d' with
  | nil => rfl
  | cons step more ih =>
    obtain ⟨e, hstep, hmore⟩ := isSome_floor?_cons.1 h
    obtain ⟨e', hstep', hee⟩ := floorStep_mono hstep hle
    exact isSome_floor?_cons.2 ⟨e', hstep', ih hmore hee⟩

/-- Two stars may stay where they are, so that steps behind them do not lead out either. -/
theorem isSome_floor?_dropWhile (h : (floor? d steps).isSome = true) :
    (floor? d (steps.dropWhile isAnyDepth)).isSome = true := by
  induction steps generalizing d with
  | nil => exact h
  | cons step more ih =>
    rw [List.dropWhile_cons]
    split
    next hany =>
      obtain ⟨e, hstep, hmore⟩ := isSome_floor?_cons.1 h
      exact ih (isSome_floor?_mono hmore ((floorStep_le hstep).2.2 (by simp [rests, hany])))
    next => exact h

/-- The steps that are left to be followed from a directory, which fields have led to, do not lead out. -/
structure Ready (n d : Nat) (fs : List String) (steps : List (List FileGlob.Part)) : Prop where
  slashless : ∀ f ∈ fs, '/' ∉ f.toList
  depth : depth? fs = some d
  floor : (floor? d steps).isSome = true
  turns_le : turns fs + steps.length ≤ n
  names : HasNames steps

namespace Ready

/-- Fields that are ready do not lead out. -/
theorem inside (h : Ready n d fs steps) : Inside n fs :=
  ⟨h.slashless, by rw [h.depth]; rfl, (Nat.le_add_right _ _).trans h.turns_le⟩

/-- One step is done if a field leads no less far down than the step does at least. -/
theorem concat (h : Ready n d fs (step :: more)) (hname : '/' ∉ name.toList) (hd : depthStep d name = some d')
    (he : ∀ e, floorStep d step = some e → e ≤ d') : Ready n d' (fs ++ [name]) more := by
  obtain ⟨e, hstep, hmore⟩ := isSome_floor?_cons.1 h.floor
  refine ⟨fun f hf => ?_, by rw [depth?_concat, h.depth, Option.bind_some, hd], isSome_floor?_mono hmore (he e hstep), ?_,
    fun other hmem => h.names other (List.mem_cons_of_mem step hmem)⟩
  · exact (List.mem_append.1 hf).elim (h.slashless f) fun hmem => List.mem_singleton.1 hmem ▸ hname
  · have hturns := h.turns_le
    rw [List.length_cons] at hturns
    rw [turns_concat]
    split <;> omega

/-- A step without wildcards is done by its text. -/
theorem literal (h : Ready n d fs (step :: more)) (hname : FileGlob.literal? step = some name) :
    ∃ d', depthStep d name = some d' ∧ Ready n d' (fs ++ [name]) more := by
  obtain ⟨e, hstep, _⟩ := isSome_floor?_cons.1 h.floor
  obtain ⟨hle, hup, hrests⟩ := floorStep_le hstep
  have hslash := h.names step List.mem_cons_self name hname
  have hsame : ∀ e', floorStep d step = some e' → e' = e := fun e' he' => Option.some.inj (he'.symm.trans hstep)
  by_cases hidle : isIdle name = true
  · have hd : depthStep d name = some d := if_pos hidle
    refine ⟨d, hd, h.concat hslash hd fun e' he' => hsame e' he' ▸ hrests ?_⟩
    rw [isIdle, Bool.or_eq_true, beq_iff_eq, beq_iff_eq] at hidle
    rcases hidle with rfl | rfl <;> simp [rests, hname]
  · by_cases hparent : name = ".."
    · subst hparent
      obtain ⟨hne, rfl⟩ := hup (by simp [leadsUp, hname])
      have hd : depthStep d ".." = some (d - 1) := by simp [depthStep, hidle, hne]
      exact ⟨d - 1, hd, h.concat hslash hd fun e' he' => Nat.le_of_eq (hsame e' he')⟩
    · have hd : depthStep d name = some (d + 1) := by simp [depthStep, hidle, hparent]
      exact ⟨d + 1, hd, h.concat hslash hd fun e' he' => hsame e' he' ▸ hle⟩

/-- A step that begins with a dot is done by the directory itself or by the one above. -/
theorem dot (h : Ready n d fs (step :: more)) (hname : name ∈ dotNames step) :
    ∃ d', d' ≤ d ∧ Ready n d' (fs ++ [name]) more := by
  obtain ⟨e, hstep, _⟩ := isSome_floor?_cons.1 h.floor
  obtain ⟨_, hup, hrests⟩ := floorStep_le hstep
  have hsame : ∀ e', floorStep d step = some e' → e' = e := fun e' he' => Option.some.inj (he'.symm.trans hstep)
  rcases mem_dotNames hname with rfl | rfl
  · obtain ⟨hne, rfl⟩ := hup (by simp [leadsUp, hname])
    have hd : depthStep d ".." = some (d - 1) := by simp [depthStep, hne, show isIdle ".." = false from by decide]
    exact ⟨d - 1, Nat.sub_le _ _, h.concat (by decide) hd fun e' he' => Nat.le_of_eq (hsame e' he')⟩
  · have hd : depthStep d "." = some d := if_pos (by decide)
    exact ⟨d, Nat.le_refl _, h.concat (by decide) hd fun e' he' => hsame e' he' ▸ hrests (by simp [rests, hname])⟩

/-- A step is done by an entry of the directory. -/
theorem entry (h : Ready n d fs (step :: more)) (hname : IsStep name ∧ name ≠ "..") :
    Ready n (d + 1) (fs ++ [name]) more :=
  h.concat hname.1.1 (depthStep_of_isDown (isDown_iff.2 ⟨hname.1.2, hname.2⟩) d) fun _ he => (floorStep_le he).1

/-- An entry of the directory leaves all steps to be done. -/
theorem enter (h : Ready n d fs steps) (hname : IsStep name ∧ name ≠ "..") : Ready n (d + 1) (fs ++ [name]) steps := by
  have hdown : isDown name = true := isDown_iff.2 ⟨hname.1.2, hname.2⟩
  refine ⟨fun f hf => ?_, ?_, isSome_floor?_mono h.floor (Nat.le_succ d), ?_, h.names⟩
  · exact (List.mem_append.1 hf).elim (h.slashless f) fun hmem => List.mem_singleton.1 hmem ▸ hname.1.1
  · rw [depth?_concat, h.depth, Option.bind_some, depthStep_of_isDown hdown]
  · rw [turns_concat, if_pos hdown]
    exact h.turns_le

/-- Two stars may be left out, with those behind them. -/
theorem skip (h : Ready n d fs (step :: more)) (hany : isAnyDepth step = true) :
    Ready n d fs (more.dropWhile isAnyDepth) ∧ Ready n d fs (step :: more.dropWhile isAnyDepth) := by
  obtain ⟨e, hstep, hmore⟩ := isSome_floor?_cons.1 h.floor
  have hsub : (more.dropWhile isAnyDepth).length ≤ more.length := (List.dropWhile_suffix _).length_le
  have hnames : HasNames (more.dropWhile isAnyDepth) := fun other hmem =>
    h.names other (List.mem_cons_of_mem step ((List.dropWhile_suffix _).subset hmem))
  have hturns := h.turns_le
  rw [List.length_cons] at hturns
  refine ⟨⟨h.slashless, h.depth, ?_, by omega, hnames⟩, ⟨h.slashless, h.depth, ?_, by rw [List.length_cons]; omega, ?_⟩⟩
  · exact isSome_floor?_mono (isSome_floor?_dropWhile hmore) ((floorStep_le hstep).2.2 (by simp [rests, hany]))
  · exact isSome_floor?_cons.2 ⟨e, hstep, isSome_floor?_dropWhile hmore⟩
  · intro other hmem
    rcases List.mem_cons.1 hmem with rfl | hmem
    · exact h.names other List.mem_cons_self
    · exact hnames other hmem

end Ready

/-! ## Patterns that do not lead out -/

section Patterns

variable {pattern text : String} {texts : List String}

/-- A relative pattern of so many fields at most, whose steps do not lead out of the directory that they are followed from. -/
structure IsLocal (n : Nat) (pattern : String) : Prop where
  relative : Path.isAbsolute ⟨pattern⟩ = false
  stays : ∀ steps ∈ ((stepTexts pattern).mapM FileGlob.read).toOption, StaysBelow steps
  length_le : (Text.fields '/' pattern).length ≤ n

instance (n : Nat) (pattern : String) : Decidable (IsLocal n pattern) :=
  decidable_of_iff (Path.isAbsolute ⟨pattern⟩ = false ∧
      (∀ steps ∈ ((stepTexts pattern).mapM FileGlob.read).toOption, StaysBelow steps) ∧
      (Text.fields '/' pattern).length ≤ n)
    ⟨fun ⟨hrelative, hstays, hle⟩ => ⟨hrelative, hstays, hle⟩, fun h => ⟨h.relative, h.stays, h.length_le⟩⟩

/-- A slash at the end of a pattern begins a field that does nothing. -/
theorem fields_eq_stepTexts (pattern : String) :
    Text.fields '/' pattern = stepTexts pattern ∨ Text.fields '/' pattern = stepTexts pattern ++ [""] := by
  unfold stepTexts
  split
  next front hfront => exact Or.inr (by rw [← List.reverse_reverse (Text.fields '/' pattern), hfront, List.reverse_cons])
  next => exact Or.inl rfl

/-- A field leads no less far down than the step that it is read as does at least. -/
theorem exists_depthStep (hread : FileGlob.read text = .ok step) (hfloor : floorStep d step = some e) (hle : d ≤ d') :
    ∃ e', depthStep d' text = some e' ∧ e ≤ e' := by
  obtain ⟨hnext, hup, hrests⟩ := floorStep_le hfloor
  unfold depthStep
  split
  next hidle =>
    have hstep : rests step = true := by
      rw [isIdle, Bool.or_eq_true, beq_iff_eq, beq_iff_eq] at hidle
      rcases hidle with rfl | rfl <;> cases hread <;> decide
    exact ⟨d', rfl, (hrests hstep).trans hle⟩
  · split
    next hparent =>
      subst hparent
      have hstep : leadsUp step = true := by
        cases hread
        decide
      obtain ⟨hne, rfl⟩ := hup hstep
      exact ⟨d' - 1, if_neg (by omega), by omega⟩
    next => exact ⟨d' + 1, rfl, by omega⟩

/-- Fields stay inside if the steps that they are read as do. -/
theorem isSome_foldlM_depthStep (hread : texts.mapM FileGlob.read = .ok steps) (hfloor : (floor? d steps).isSome = true)
    (hle : d ≤ d') : texts.length = steps.length ∧ (texts.foldlM depthStep d').isSome = true := by
  induction texts generalizing steps d d' with
  | nil =>
    cases hread
    exact ⟨rfl, rfl⟩
  | cons text texts ih =>
    rw [List.mapM_cons] at hread
    cases htext : FileGlob.read text with
    | error fault => simp [htext, bind, Except.bind] at hread
    | ok step =>
      cases htexts : texts.mapM FileGlob.read with
      | error fault => simp [htext, htexts, bind, Except.bind] at hread
      | ok more =>
        obtain rfl : step :: more = steps := by simpa [htext, htexts, bind, Except.bind, pure, Except.pure] using hread
        obtain ⟨e, hstep, hmore⟩ := isSome_floor?_cons.1 hfloor
        obtain ⟨e', hd', hee⟩ := exists_depthStep htext hstep hle
        obtain ⟨hlength, hsome⟩ := ih htexts hmore hee
        rw [List.foldlM_cons, hd']
        exact ⟨congrArg (· + 1) hlength, hsome⟩

namespace IsLocal

variable (h : IsLocal n pattern) (hsteps : (stepTexts pattern).mapM FileGlob.read = .ok steps)
include h hsteps

/-- Steps that are ready do not lead out. -/
theorem staysBelow : StaysBelow steps :=
  h.stays steps (by rw [hsteps]; rfl)

/-- A pattern has no more steps than its fields allow. -/
theorem steps_le : steps.length ≤ n := by
  obtain ⟨hlength, _⟩ := isSome_foldlM_depthStep hsteps (h.staysBelow hsteps) (Nat.le_refl 0)
  have hle := h.length_le
  rcases fields_eq_stepTexts pattern with hfields | hfields <;> rw [hfields] at hle
  · omega
  · rw [List.length_append] at hle
    omega

/-- The fields of such a pattern stay inside. -/
theorem inside : Inside n (Text.fields '/' pattern) := by
  obtain ⟨_, hsome⟩ := isSome_foldlM_depthStep hsteps (h.staysBelow hsteps) (Nat.le_refl 0)
  refine ⟨fun f hf => Text.not_mem_of_mem_fields hf, ?_, List.countP_le_length.trans h.length_le⟩
  rcases fields_eq_stepTexts pattern with hfields | hfields <;> rw [hfields]
  · exact hsome
  · obtain ⟨d, hd⟩ := Option.isSome_iff_exists.1 hsome
    rw [depth?_concat, depth?, hd]
    rfl

end IsLocal

end Patterns

end FilePattern

/-! ## Following -/

/-- Two paths that the same fields lead to from two directories, without leading out. -/
inductive Path.Abreast (b b' : Place) (n : Nat) : Path → Path → Prop where
  | below {fs : List String} (inside : Inside n fs) : Abreast b b' n ((ofPlace b).down fs) ((ofPlace b').down fs)

/-- Lists that are made from related ones piece by piece are related. -/
theorem forall₂_flatMap {α β γ : Type} {R : β → γ → Prop} {xs : List α} {f : α → List β} {g : α → List γ}
    (h : ∀ x ∈ xs, List.Forall₂ R (f x) (g x)) : List.Forall₂ R (xs.flatMap f) (xs.flatMap g) := by
  induction xs with
  | nil => exact .nil
  | cons x xs ih =>
    rw [List.flatMap_cons, List.flatMap_cons]
    exact List.rel_append (h x List.mem_cons_self) (ih fun y hy => h y (List.mem_cons_of_mem x hy))

/-- Lists are related under a condition if they are so where it holds. -/
theorem forall₂_ite {β γ : Type} {R : β → γ → Prop} {c : Prop} [Decidable c] {ys : List β} {zs : List γ}
    (h : c → List.Forall₂ R ys zs) : List.Forall₂ R (if c then ys else []) (if c then zs else []) := by
  by_cases hc : c
  · rw [if_pos hc, if_pos hc]
    exact h hc
  · rw [if_neg hc, if_neg hc]
    exact .nil

namespace FileTree

open FilePattern

variable {t t' : FileTree} {b b' : Place} {n D F : Nat} {q q' : FilePattern}

/-- The fuel for so many steps from so far below a directory, in a tree that goes no further down than `D` below it. -/
def fuelFor (D count depth : Nat) : Nat :=
  4 * (count * (D + 2) + (D - depth))

/-- With so much fuel at least, steps that do not lead out are followed alike below two directories. -/
structure FollowsAlike (t t' : FileTree) (q q' : FilePattern) (b b' : Place) (n D F : Nat) : Prop where
  below : ∀ F' steps d fs, Ready n d fs steps → d ≤ D → fuelFor D steps.length d + 1 ≤ F → fuelFor D steps.length d + 1 ≤ F' →
    List.Forall₂ (Path.Abreast b b' n) (t.matchesBelow q F steps ((ofPlace b).down fs))
      (t'.matchesBelow q' F' steps ((ofPlace b').down fs))
  after : ∀ F' steps d fs, Ready n d fs steps → d ≤ D → fuelFor D steps.length d + 2 ≤ F → fuelFor D steps.length d + 2 ≤ F' →
    List.Forall₂ (Path.Abreast b b' n) (t.matchesAfter q F steps ((ofPlace b).down fs))
      (t'.matchesAfter q' F' steps ((ofPlace b').down fs))
  atEntry : ∀ F' steps d fs name, Ready n d fs steps → (IsStep name ∧ name ≠ "..") → d + 1 ≤ D →
    fuelFor D steps.length (d + 1) + 2 ≤ F → fuelFor D steps.length (d + 1) + 2 ≤ F' →
    List.Forall₂ (Path.Abreast b b' n) (t.matchesAt q F steps ((ofPlace b).down (fs ++ [name])))
      (t'.matchesAt q' F' steps ((ofPlace b').down (fs ++ [name])))

/-- Fewer steps take less fuel, from wherever they are followed. -/
theorem fuelFor_lt {count count' d d' : Nat} (hc : count < count') (D : Nat) :
    fuelFor D count d + 8 ≤ fuelFor D count' d' := by
  have hmul : (count + 1) * (D + 2) ≤ count' * (D + 2) := Nat.mul_le_mul_right _ hc
  rw [Nat.succ_mul] at hmul
  unfold fuelFor
  omega

/-- A tree has fuel for the way down to a directory and so many steps from there. -/
theorem fuelFor_add_le {count length depth : Nat} (h : D + length ≤ depth) :
    fuelFor D count 0 + 2 + 2 * length ≤ 4 * (length + count + 1) * (depth + 2) := by
  have hcount : (count + 1) * (D + 2) ≤ (count + 1) * (depth + 2) := Nat.mul_le_mul_left _ (by omega)
  have hlength : length * 2 ≤ length * (depth + 2) := Nat.mul_le_mul_left _ (by omega)
  have hsum : (length + count + 1) * (depth + 2) = length * (depth + 2) + (count + 1) * (depth + 2) := by
    rw [Nat.add_assoc, Nat.add_mul]
  rw [Nat.mul_assoc, hsum]
  rw [Nat.succ_mul] at hcount
  unfold fuelFor
  omega

/-- From an absolute directory a step leads to its child. -/
theorem stepInto_of_isAbsolute {dir : Path} (h : dir.isAbsolute = true) (name : String) :
    stepInto dir name = dir.child name := by
  obtain ⟨s, rfl⟩ := isAbsolute_iff.1 h
  rw [stepInto, components_root, if_neg (by simp)]

/-- A maximum is no less than the number that it is begun with, nor than any of the others. -/
theorem le_foldl_max (lengths : List Nat) (start : Nat) :
    start ≤ lengths.foldl max start ∧ ∀ k ∈ lengths, k ≤ lengths.foldl max start := by
  induction lengths generalizing start with
  | nil => exact ⟨Nat.le_refl _, nofun⟩
  | cons k lengths ih =>
    obtain ⟨hstart, hmem⟩ := ih (max start k)
    refine ⟨(Nat.le_max_left _ _).trans hstart, fun m hm => ?_⟩
    rcases List.mem_cons.1 hm with rfl | hm
    · exact (Nat.le_max_right _ _).trans hstart
    · exact hmem m hm

/-- Nothing stands further down than a tree is deep. -/
theorem length_le_depth {place : Place} (h : (t.content? place).isSome = true) : place.length ≤ t.depth := by
  by_cases hnil : place = []
  · simp [hnil]
  · have hmem : place ∈ t.entries.map Prod.fst := by
      by_contra hnot
      have hnone : t.entries.lookup place = none := by
        refine List.lookup_eq_none_iff.2 fun entry hentry => ?_
        simpa using fun heq : place = entry.1 => hnot (heq ▸ List.mem_map_of_mem hentry)
      rw [content?, if_neg hnil, hnone] at h
      cases h
    obtain ⟨entry, hentry, rfl⟩ := List.mem_map.1 hmem
    exact (le_foldl_max _ 0).2 _ (List.mem_map_of_mem hentry)

namespace SameBelow

variable (h : t.SameBelow t' b b' n)
include h

/-- What is read below the directory is no further down than the tree goes. -/
theorem depth_le (hD : ∀ rest, (t.content? (b ++ rest)).isSome = true → rest.length ≤ D) {fs : List String} {d : Nat}
    (hfs : Inside n fs) (hdepth : depth? fs = some d) (hthere : t.exists? ((ofPlace b).down fs) = true) : d ≤ D := by
  unfold exists? read? at hthere
  cases hl : t.locate ((ofPlace b).down fs) with
  | error cause => rw [hl] at hthere; cases hthere
  | ok place =>
    rw [hl] at hthere
    obtain ⟨rest, rfl, hrest⟩ := h.exists_of_locate hfs hl
    obtain rfl : d = rest.length := Option.some.inj (hdepth.symm.trans hrest)
    exact hD rest hthere

/-- What is listed below the directory is no further down than the tree goes. -/
theorem depth_lt_of_listed (hD : ∀ rest, (t.content? (b ++ rest)).isSome = true → rest.length ≤ D) {fs : List String} {d : Nat}
    (hfs : Inside n fs) (hdepth : depth? fs = some d) {name : String}
    (hname : name ∈ (t.list ((ofPlace b).down fs)).toOption.getD []) : d + 1 ≤ D ∧ IsStep name ∧ name ≠ ".." := by
  cases hl : t.list ((ofPlace b).down fs) with
  | error cause => rw [hl] at hname; cases hname
  | ok names =>
    rw [hl] at hname
    refine ⟨?_, (h.base.wellFormed.names_of_list hl).2 name hname⟩
    obtain ⟨place, hplace, rfl⟩ := exists_of_list hl
    obtain ⟨rest, rfl, hrest⟩ := h.exists_of_locate hfs hplace
    obtain rfl : d = rest.length := Option.some.inj (hdepth.symm.trans hrest)
    have hmem := mem_childNames.1 (List.mem_mergeSort.1 (show name ∈ _ from hname))
    have hthere : (t.content? (b ++ rest ++ [name])).isSome = true := by
      rw [← Bool.not_eq_false]
      exact fun hnone => not_mem_of_content? hnone hmem
    have hle := hD (rest ++ [name]) (by rwa [← List.append_assoc])
    rwa [List.length_append] at hle

/-! ### One step of following -/

section Step

variable {F' d : Nat} {fs : List String} {steps : List (List FileGlob.Part)} (ih : FollowsAlike t t' q q' b b' n D F)
include ih

/-- The matches below two directories correspond, with more fuel on both sides. -/
theorem succ_below (hD : ∀ rest, (t.content? (b ++ rest)).isSome = true → rest.length ≤ D) (hr : Ready n d fs steps)
    (hd : d ≤ D) (hF : fuelFor D steps.length d ≤ F) (hF' : fuelFor D steps.length d ≤ F') :
    List.Forall₂ (Path.Abreast b b' n) (t.matchesBelow q (F + 1) steps ((ofPlace b).down fs))
      (t'.matchesBelow q' (F' + 1) steps ((ofPlace b').down fs)) := by
  cases steps with
  | nil =>
    unfold matchesBelow
    exact .nil
  | cons step more =>
    have habs := isAbsolute_down (HasDirectory.isAbsolute b) fs
    have habs' := isAbsolute_down (HasDirectory.isAbsolute b') fs
    have hless : ∀ d', fuelFor D more.length d' + 8 ≤ fuelFor D (step :: more).length d := fun d' =>
      fuelFor_lt (Nat.lt_succ_self more.length) D
    unfold matchesBelow
    simp only [stepInto_of_isAbsolute habs, stepInto_of_isAbsolute habs', ← down_concat, ← h.isDir_eq hr.inside,
      ← (h.seen_down_eq hr.inside).2]
    cases hname : FileGlob.literal? step with
    | some name =>
      obtain ⟨d', hd', hnext⟩ := hr.literal hname
      have hfuel := hless d'
      simp only [← h.exists?_eq hnext.inside]
      refine forall₂_ite fun hreached => ih.after _ _ _ _ hnext ?_ (by omega) (by omega)
      -- a step down is only taken to what is there
      by_cases hdown : isDown name = true
      · obtain ⟨hidle, hparent⟩ := isDown_iff.1 hdown
        have hdot : name ≠ "." := by
          rintro rfl
          cases hidle
        exact h.depth_le hD hnext.inside hnext.depth (by simpa [hdot, hparent] using hreached)
      · have hle : d' ≤ d := by
          unfold depthStep at hd'
          rw [isDown_iff] at hdown
          grind
        exact hle.trans hd
    | none =>
      cases t.isDir ((ofPlace b).down fs) with
      | false => exact .nil
      | true =>
        refine List.rel_append (forall₂_flatMap fun name hname => ?_) (forall₂_flatMap fun name hname => ?_)
        · obtain ⟨d', hd', hnext⟩ := hr.dot hname
          have hfuel := hless d'
          exact ih.after _ _ _ _ hnext (hd'.trans hd) (by omega) (by omega)
        · obtain ⟨hlt, hstep⟩ := h.depth_lt_of_listed hD hr.inside hr.depth hname
          have hfuel : fuelFor D (step :: more).length (d + 1) + 4 ≤ fuelFor D (step :: more).length d := by
            unfold fuelFor
            omega
          exact ih.atEntry _ _ _ _ _ hr hstep hlt (by omega) (by omega)

/-- The matches behind a step correspond, with more fuel on both sides. -/
theorem succ_after (hdirs : q.directoriesOnly = q'.directoriesOnly) (hr : Ready n d fs steps) (hd : d ≤ D)
    (hF : fuelFor D steps.length d + 1 ≤ F) (hF' : fuelFor D steps.length d + 1 ≤ F') :
    List.Forall₂ (Path.Abreast b b' n) (t.matchesAfter q (F + 1) steps ((ofPlace b).down fs))
      (t'.matchesAfter q' (F' + 1) steps ((ofPlace b').down fs)) := by
  unfold matchesAfter
  cases steps with
  | nil =>
    simp only [isWanted, ← h.isDir_eq hr.inside, ← hdirs]
    exact forall₂_ite fun _ => .cons (.below hr.inside) .nil
  | cons step more => exact ih.below _ _ _ _ hr hd hF hF'

/-- The matches at an entry correspond, with more fuel on both sides. -/
theorem succ_atEntry {name : String} (hr : Ready n d fs steps) (hname : IsStep name ∧ name ≠ "..") (hd : d + 1 ≤ D)
    (hF : fuelFor D steps.length (d + 1) + 1 ≤ F) (hF' : fuelFor D steps.length (d + 1) + 1 ≤ F') :
    List.Forall₂ (Path.Abreast b b' n) (t.matchesAt q (F + 1) steps ((ofPlace b).down (fs ++ [name])))
      (t'.matchesAt q' (F' + 1) steps ((ofPlace b').down (fs ++ [name]))) := by
  unfold matchesAt
  cases steps with
  | nil => exact .nil
  | cons step more =>
    have hinside := (hr.enter hname).inside
    have hless : ∀ count, count < more.length + 1 → ∀ d', fuelFor D count d' + 8 ≤ fuelFor D (step :: more).length (d + 1) :=
      fun count hlt d' => fuelFor_lt hlt D
    have hlast : ∀ base : Place, ((ofPlace base).down (fs ++ [name])).fileName = some name := fun base => by
      rw [down_concat]
      exact fileName_child (isAbsolute_down (HasDirectory.isAbsolute base) fs) hname.1 hname.2
    simp only [← h.isDir_eq hinside, hlast]
    by_cases hany : isAnyDepth step = true
    · rw [if_pos hany, if_pos hany]
      obtain ⟨hrest, hstars⟩ := hr.skip hany
      have hsub : (more.dropWhile isAnyDepth).length ≤ more.length := (List.dropWhile_suffix _).length_le
      refine List.rel_append ?_ (forall₂_ite fun _ => ?_)
      · by_cases hempty : (more.dropWhile isAnyDepth).isEmpty = true
        · rw [if_pos hempty, if_pos hempty]
          exact forall₂_ite fun _ => .cons (.below hinside) .nil
        · rw [if_neg hempty, if_neg hempty]
          have hfuel := hless _ (Nat.lt_succ_of_le hsub) (d + 1)
          exact ih.atEntry _ _ _ _ _ hrest hname hd (by omega) (by omega)
      · have hfuel : fuelFor D (step :: more.dropWhile isAnyDepth).length (d + 1) ≤
            fuelFor D (step :: more).length (d + 1) := by
          have hmul := Nat.mul_le_mul_right (D + 2) (Nat.add_le_add_right hsub 1)
          simp only [fuelFor, List.length_cons]
          omega
        exact ih.below _ _ _ _ (hstars.enter hname) hd (by omega) (by omega)
    · rw [if_neg hany, if_neg hany]
      have hfuel := hless _ (Nat.lt_succ_self more.length) (d + 1)
      exact forall₂_ite fun _ => ih.after _ _ _ _ (hr.entry hname) hd (by omega) (by omega)

end Step

/-- So much fuel follows steps that do not lead out alike, whatever there is more of it on either side. -/
theorem followsAlike (hD : ∀ rest, (t.content? (b ++ rest)).isSome = true → rest.length ≤ D)
    (hdirs : q.directoriesOnly = q'.directoriesOnly) (F : Nat) : FollowsAlike t t' q q' b b' n D F := by
  induction F with
  | zero => constructor <;> intros <;> omega
  | succ F ih =>
    constructor
    · intro F' steps d fs hr hd hF hF'
      obtain ⟨F', rfl⟩ : ∃ k, F' = k + 1 := ⟨F' - 1, by omega⟩
      exact h.succ_below ih hD hr hd (by omega) (by omega)
    · intro F' steps d fs hr hd hF hF'
      obtain ⟨F', rfl⟩ : ∃ k, F' = k + 1 := ⟨F' - 1, by omega⟩
      exact h.succ_after ih hdirs hr hd (by omega) (by omega)
    · intro F' steps d fs name hr hname hd hF hF'
      obtain ⟨F', rfl⟩ : ∃ k, F' = k + 1 := ⟨F' - 1, by omega⟩
      exact h.succ_atEntry ih hr hname hd (by omega) (by omega)

end SameBelow

/-! ### Down to the directory -/

namespace HasDirectory

variable (h : t.HasDirectory b)
include h

/-- The places on the way to a directory are there. -/
theorem exists?_above {above more : Place} (hb : b = above ++ more) : t.exists? (ofPlace above) = true := by
  cases more with
  | nil =>
    rw [List.append_nil] at hb
    exact hb ▸ exists?_of_isDir h.isDir
  | cons name more =>
    obtain ⟨hnul, hsize, hfold⟩ := (locate_eq_ok (isAbsolute b)).1 h.locate_base
    have hsteps : ∀ x ∈ above, IsStep x ∧ x ≠ ".." := fun x hx => h.steps x (hb ▸ List.mem_append_left _ hx)
    have hslash : ∀ f ∈ name :: more, '/' ∉ f.toList := fun f hf => (h.steps f (hb ▸ List.mem_append_right _ hf)).1.1
    obtain ⟨s, hs⟩ := exists_text_down (isAbsolute above) hslash
    have htext : (ofPlace b).text = (ofPlace above).text ++ s := by
      rw [← hs, hb, ofPlace, ofPlace, down, down, down, List.foldl_append]
    -- the next name is followed from a directory
    rw [fields_ofPlace h.steps h.ne_nil, List.tail_cons, hb, List.foldlM_append] at hfold
    cases habove : above.foldlM t.follow [] with
    | error cause =>
      rw [habove] at hfold
      cases hfold
    | ok place =>
      obtain rfl : place = above := by
        rw [eq_of_foldlM_follow (fun hmem => (hsteps _ hmem).2 rfl) habove, List.nil_append,
          List.filter_eq_self.2 fun x hx => by simp [(hsteps x hx).1.2]]
      have hdir : t.content? place = some .directory := by
        rw [habove] at hfold
        cases hname : t.follow place name with
        | error cause => simp [bind, Except.bind, hname] at hfold
        | ok next => exact (follow_eq_ok hname).1
      have hl : t.locate (ofPlace place) = .ok place := by
        refine (locate_eq_ok (isAbsolute place)).2 ⟨fun hmem => hnul ?_, ?_, ?_⟩
        · rw [htext, String.toList_append]
          exact List.mem_append_left _ hmem
        · rw [htext, String.utf8ByteSize_append] at hsize
          omega
        · by_cases hnil : place = []
          · subst hnil
            rfl
          · rwa [fields_ofPlace hsteps hnil, List.tail_cons]
      simp [exists?, read?, hl, hdir]

/-- The literal steps of a directory lead down to it, and take two units of fuel each. -/
theorem matchesAfter_literals (q : FilePattern) (steps : List (List FileGlob.Part)) (F : Nat) {above more : Place}
    (hb : b = above ++ more) :
    t.matchesAfter q (F + 2 * more.length) (literals more ++ steps) (ofPlace above) =
      t.matchesAfter q F steps (ofPlace b) := by
  induction more generalizing above with
  | nil =>
    rw [List.append_nil] at hb
    rw [hb]
    rfl
  | cons name more ih =>
    have hname := h.steps name (by simp [hb])
    have hdot : (name == "." || name == "..") = false := by
      rw [Bool.or_eq_false_iff, beq_eq_false_iff_ne, beq_eq_false_iff_ne]
      exact ⟨by rintro rfl; exact absurd hname.1.2 (by decide), hname.2⟩
    have hnext : b = (above ++ [name]) ++ more := by simp [hb]
    have hchild : stepInto (ofPlace above) name = ofPlace (above ++ [name]) := by
      rw [stepInto_of_isAbsolute (isAbsolute above), ofPlace, ofPlace, down_concat]
    have hliteral : FileGlob.literal? (name.toList.map .char) = some name := by
      rw [FileGlob.literal?_map_char, String.ofList_toList]
    rw [← ih hnext, List.length_cons, Nat.mul_succ, ← Nat.add_assoc, literals, List.map_cons, List.cons_append, matchesAfter,
      matchesBelow, hliteral]
    simp only [hdot, hchild, h.exists?_above hnext]
    rfl

end HasDirectory

namespace SameBelow

variable (h : t.SameBelow t' b b' n)
include h

/-- A pattern that does not lead out matches counterparts below the directories, in the same order. -/
theorem matching_below {steps : List (List FileGlob.Part)} (hnames : HasNames steps) (hsteps : StaysBelow steps)
    (hle : steps.length ≤ n) (directoriesOnly : Bool) :
    List.Forall₂ (Path.Abreast b b' n) (t.matching ⟨⟨"/"⟩, literals b ++ steps, directoriesOnly⟩)
      (t'.matching ⟨⟨"/"⟩, literals b' ++ steps, directoriesOnly⟩) := by
  have hready : Ready n 0 [] steps := ⟨nofun, rfl, hsteps, by simpa [turns] using hle, hnames⟩
  have hmatching : ∀ {tree : FileTree} {base : Place}, tree.HasDirectory base → ∀ D, D + base.length ≤ tree.depth →
      ∃ F, fuelFor D steps.length 0 + 2 ≤ F ∧ tree.matching ⟨⟨"/"⟩, literals base ++ steps, directoriesOnly⟩ =
        tree.matchesAfter ⟨⟨"/"⟩, literals base ++ steps, directoriesOnly⟩ F steps (ofPlace base) := by
    intro tree base hbase D hD
    have hfuel : fuelFor D steps.length 0 + 2 + 2 * base.length ≤ 4 * (base.length + steps.length + 1) * (tree.depth + 2) :=
      fuelFor_add_le hD
    refine ⟨4 * (base.length + steps.length + 1) * (tree.depth + 2) + 1 - 2 * base.length, by omega, ?_⟩
    rw [← hbase.matchesAfter_literals _ _ _ (List.nil_append base).symm, Nat.sub_add_cancel (by omega)]
    obtain ⟨name, more, rfl⟩ := List.exists_cons_of_ne_nil hbase.ne_nil
    rw [matching, List.length_append, literals, List.length_map]
    rfl
  have hD : ∀ rest, (t.content? (b ++ rest)).isSome = true →
      rest.length ≤ min (t.depth - b.length) (t'.depth - b'.length) := by
    intro rest hrest
    have hlength := length_le_depth hrest
    have hlength' := length_le_depth (h.content_eq rest ▸ hrest)
    rw [List.length_append] at hlength hlength'
    omega
  have hbase : b.length ≤ t.depth := length_le_depth (by rw [h.base.content_base]; rfl)
  have hbase' : b'.length ≤ t'.depth := length_le_depth (by rw [h.base'.content_base]; rfl)
  obtain ⟨F, hF, heq⟩ := hmatching h.base (min (t.depth - b.length) (t'.depth - b'.length)) (by omega)
  obtain ⟨F', hF', heq'⟩ := hmatching h.base' (min (t.depth - b.length) (t'.depth - b'.length)) (by omega)
  rw [heq, heq']
  refine (h.followsAlike hD ?_ F).after F' steps 0 [] hready (Nat.zero_le _) hF hF'
  rfl

end SameBelow

end FileTree

end ImportClosure
