import ImportClosure.Policy.NamePatterns
import ImportClosure.Proofs.Resolved
import ImportClosure.Proofs.Shapes
import ImportClosure.Proofs.Step

/-!
# Patterns and packages

A pattern that takes a package takes whatever lies in the package (`NamePattern.isSome_hitKind?_child`), and so does a
list of patterns. For globs this rests on the second glob of a pattern, which is read from the same text with a dot and a
star behind it: it takes what the first one takes with a dot and anything behind that (`NameGlob.exists_content`). In a
list the pattern that decides about a module stands no later than the one that decides about a package around it
(`NamePatterns.covers_packages`).

The two readings part at the dot. They agree on what is in front of it except behind two stars: these may end the first
glob as a step of its own, in place of the slash in front of them, while the dot makes plain stars of them. So the
reader must know that the part in front of such stars takes a slash (`NameGlob.State.Sound`).
-/

namespace ImportClosure

namespace NameGlob

variable {parts : List Part} {c : Char}

/-! ## Parts -/

/-- Parts take texts one after the other, the last part the last text. -/
theorem takes_shapeOf_cons {p : Part} {s : List UInt8} :
    (shapeOf (p :: parts)).Takes s ↔ ∃ u v, s = u ++ v ∧ (shapeOf parts).Takes u ∧ p.shape.Takes v := by
  unfold shapeOf
  rw [List.reverse_cons, List.map_append, Shape.takes_all_append]
  rfl

/-- Any text may stand in front of one that a shape takes. -/
theorem takes_push_anyText {u v : List UInt8} (h : (shapeOf parts).Takes u) :
    (shapeOf (.anyText :: parts)).Takes (u ++ v) :=
  takes_shapeOf_cons.2 ⟨u, v, rfl, h, Shape.takes_anyText⟩

/-- Whether two stars may stand for steps behind a part: it takes a slash, or is itself such stars. -/
def Part.EndsStep (p : Part) : Prop :=
  p = .stepsFirst ∨ p = .stepsLast ∨ p.shape.Takes (String.utf8EncodeChar '/')

/-- Stars that stand for steps end a step. -/
theorem Part.endsStep_stepsBetween : Part.EndsStep .stepsBetween :=
  Or.inr (Or.inr (Shape.takes_either.2 (Or.inl (Shape.takes_char.2 rfl))))

/-! ## The reader -/

/-- Behind a slash the last part ends a step. -/
def SlashBehind (front : Option Char) (parts : List Part) : Prop :=
  front = some '/' → ∃ p rest, parts = p :: rest ∧ p.EndsStep

/-- In front of what is no slash nothing is asked of the last part. -/
theorem SlashBehind.of_ne (h : c ≠ '/') : SlashBehind (some c) parts :=
  fun hc => absurd (Option.some.inj hc) h

/-- Behind a character the last part is the character. -/
theorem SlashBehind.char (c : Char) (parts : List Part) : SlashBehind (some c) (.char c :: parts) := by
  intro hc
  obtain rfl := Option.some.inj hc
  exact ⟨.char '/', parts, rfl, Or.inr (Or.inr (Shape.takes_char.2 rfl))⟩

namespace State

variable {s s' : State}

/-- The reader knows of a slash in front of it, or in front of the stars that it has read, by the last part. -/
def Sound (s : State) : Prop :=
  match s.mode with
  | .plain => SlashBehind s.front s.parts
  | .star front => SlashBehind front s.parts
  | .stars front => SlashBehind front s.parts ∧ s.front = some '*'
  | .escaped | .classStart | .inClass _ => True

/-- Closing a group leaves the reader sound. -/
theorem Sound.closeGroup (hm : s.mode = .plain) (hf : s.front ≠ some '/') (h : s.closeGroup = .ok s') : s'.Sound := by
  unfold State.closeGroup at h
  split at h
  · cases h
  · cases h
    unfold Sound
    simp only [hm]
    exact fun hc => absurd hc hf

/-- A plain character leaves the reader sound. -/
theorem Sound.stepPlain (hs : c = '*' → SlashBehind s.front s.parts) (h : s.stepPlain c = .ok s') : s'.Sound := by
  unfold State.stepPlain at h
  split at h
  · cases h
    exact .of_ne (by decide)
  · cases h
    exact hs rfl
  · cases h
    trivial
  · cases h
    exact .of_ne (by decide)
  · exact .closeGroup rfl (by simp) h
  · split at h <;> cases h <;> exact .of_ne (by decide)
  · cases h
    trivial
  · cases h
    exact .char _ _

/-- A character of a class leaves the reader sound. -/
theorem Sound.stepClass {k : OpenClass} (h : s.stepClass k c = .ok s') : s'.Sound := by
  unfold State.stepClass at h
  simp only at h
  split at h
  next hc =>
    cases h
    have hclose : c = ']' := by
      rw [Bool.and_eq_true, beq_iff_eq] at hc
      exact hc.1
    subst hclose
    exact .of_ne (by decide)
  · repeat' split at h
    all_goals
      cases h
      try trivial

/-- Two stars in place of a slash end a step, and so do the stars that they may be one with. -/
theorem exists_pushSteps {p : Part} (hp : p.EndsStep) : ∃ q rest, (s.pushSteps p).parts = q :: rest ∧ q.EndsStep := by
  unfold pushSteps
  split
  next rest h => exact ⟨.stepsFirst, rest, h, Or.inl rfl⟩
  next rest h => exact ⟨.stepsLast, rest, h, Or.inr (Or.inl rfl)⟩
  · exact ⟨p, s.parts.tail, rfl, hp⟩

/-- Stars that stand for steps change nothing in front. -/
theorem front_pushSteps (p : Part) : (s.pushSteps p).front = s.front := by
  unfold pushSteps
  split <;> rfl

/-- Stars that stand for steps open and close no group. -/
theorem groups_pushSteps (p : Part) : (s.pushSteps p).groups = s.groups := by
  unfold pushSteps
  split <;> rfl

/-- A character behind stars leaves the reader sound. -/
theorem Sound.stepStars {front : Option Char} (hs : s.front = some '*') (h : s.stepStars front c = .ok s') :
    s'.Sound := by
  have hstar : ∀ t : State, t.front = s.front → t.stepPlain c = .ok s' → s'.Sound := by
    intro t ht
    refine Sound.stepPlain fun _ => ?_
    rw [ht, hs]
    exact .of_ne (by decide)
  unfold State.stepStars at h
  split at h
  · split at h
    · cases h
      exact fun _ => ⟨.stepsFirst, s.parts, rfl, Or.inl rfl⟩
    · exact hstar s.pushStars rfl h
  split at h
  · exact hstar s.pushStars rfl h
  split at h
  · cases h
    exact fun _ => exists_pushSteps Part.endsStep_stepsBetween
  split at h
  · exact hstar _ (front_pushSteps _) h
  · exact hstar s.pushStars rfl h

/-- Each character leaves the reader sound. -/
theorem Sound.step (hs : s.Sound) (h : s.step c = .ok s') : s'.Sound := by
  unfold State.step at h
  cases hm : s.mode with
  | plain =>
    simp only [hm, Sound] at h hs
    exact .stepPlain (fun _ => hs) h
  | escaped =>
    simp only [hm] at h
    cases h
    exact .char _ _
  | star front =>
    simp only [hm, Sound] at h hs
    split at h
    · cases h
      next hc => exact ⟨hs, by rw [beq_iff_eq.1 hc]⟩
    next hc => exact .stepPlain (fun hstar => absurd (beq_iff_eq.2 hstar) hc) h
  | stars front =>
    simp only [hm, Sound] at h hs
    exact .stepStars hs.2 h
  | classStart =>
    simp only [hm] at h
    split at h
    · cases h
      trivial
    · exact .stepClass h
  | inClass k =>
    simp only [hm] at h
    exact .stepClass h

/-- Reading a text keeps this. -/
theorem Sound.foldlM {cs : List Char} (hs : s.Sound) (h : cs.foldlM State.step s = .ok s') : s'.Sound := by
  induction cs generalizing s with
  | nil =>
    cases h
    exact hs
  | cons c cs ih =>
    rw [List.foldlM_cons] at h
    rcases hc : s.step c with err | s₁ <;> rw [hc] at h
    · cases h
    · exact ih (hs.step hc) h

/-- The reader begins sound. -/
theorem Sound.start : start.Sound :=
  fun h => nomatch h

/-! ## The end of a glob -/

/-- What a glob comes to at its end. -/
theorem of_finish (h : s.finish = .ok parts) : s.groups = [] ∧
    (s.mode = .plain ∧ parts = s.parts ∨ (∃ front, s.mode = .star front ∧ parts = .anyText :: s.parts) ∨
      ∃ front, s.mode = .stars front ∧ (parts = [.stepsFirst] ∨
        s.stepBegins front = true ∧ parts = (s.pushSteps .stepsLast).parts ∨
        parts = .anyText :: .anyText :: s.parts)) := by
  have hend : ∀ t : State, t.groups = s.groups →
      (if t.groups.isEmpty then (.ok t.parts : Except Fault (List Part)) else .error .unclosedGroup) = .ok parts →
      s.groups = [] ∧ parts = t.parts := by
    intro t ht h
    split at h
    next he =>
      cases h
      exact ⟨by rw [← ht]; exact List.isEmpty_iff.1 he, rfl⟩
    · cases h
  unfold finish at h
  cases hm : s.mode with
  | plain =>
    simp only [hm] at h
    obtain ⟨hg, hp⟩ := hend s rfl h
    exact ⟨hg, Or.inl ⟨rfl, hp⟩⟩
  | star front =>
    simp only [hm] at h
    obtain ⟨hg, hp⟩ := hend (s.push .anyText) rfl h
    exact ⟨hg, Or.inr (Or.inl ⟨front, rfl, hp⟩)⟩
  | stars front =>
    simp only [hm] at h
    split at h
    next he =>
      obtain ⟨hg, hp⟩ := hend (s.push .stepsFirst) rfl h
      refine ⟨hg, Or.inr (Or.inr ⟨front, rfl, Or.inl ?_⟩)⟩
      rw [hp, push, List.isEmpty_iff.1 he]
    split at h
    next hb =>
      obtain ⟨hg, hp⟩ := hend (s.pushSteps .stepsLast) (groups_pushSteps _) h
      exact ⟨hg, Or.inr (Or.inr ⟨front, rfl, Or.inr (Or.inl ⟨hb, hp⟩)⟩)⟩
    · obtain ⟨hg, hp⟩ := hend s.pushStars rfl h
      exact ⟨hg, Or.inr (Or.inr ⟨front, rfl, Or.inr (Or.inr hp)⟩)⟩
  | escaped | classStart | inClass =>
    simp only [hm] at h
    cases h

/-- A dot and a star behind parts. -/
theorem finish_dotStar (h : s.groups = []) : ∃ s₁ s₂, s.stepPlain '.' = .ok s₁ ∧ s₁.step '*' = .ok s₂ ∧
    s₂.finish = .ok (.anyText :: .char '.' :: s.parts) := by
  refine ⟨_, _, rfl, rfl, ?_⟩
  simp [finish, push, h, pure, Except.pure, bind, Except.bind]

/-- Behind two stars a dot is read as behind two plain stars. -/
theorem stepStars_dot (h : s.groups = []) (front : Option Char) : s.stepStars front '.' = s.pushStars.stepPlain '.' := by
  simp [State.stepStars, h]

/-- Two plain stars behind a part take what two stars in place of its slash take. -/
theorem takes_stars_of_pushSteps {p : Part} {rest : List Part} {u : List UInt8} (h : s.parts = p :: rest)
    (hp : p.EndsStep) (hu : (shapeOf (s.pushSteps .stepsLast).parts).Takes u) :
    (shapeOf (.anyText :: .anyText :: s.parts)).Takes u := by
  have hstars : ∀ v w, (shapeOf s.parts).Takes v → (shapeOf (.anyText :: .anyText :: s.parts)).Takes (v ++ w) := by
    intro v w hv
    rw [← List.append_nil (v ++ w)]
    exact takes_push_anyText (takes_push_anyText hv)
  unfold pushSteps at hu
  split at hu
  next => exact List.append_nil u ▸ hstars u [] hu
  next => exact List.append_nil u ▸ hstars u [] hu
  next hfirst hlast =>
    rcases hp with rfl | rfl | hslash
    · exact absurd h (hfirst rest)
    · exact absurd h (hlast rest)
    obtain ⟨a, b, rfl, ha, hb⟩ := takes_shapeOf_cons.1 hu
    obtain ⟨x, y, rfl, hx, _⟩ := Shape.takes_before.1 hb
    rw [Shape.takes_char.1 hx, ← List.append_assoc]
    refine hstars _ y ?_
    rw [h] at ha ⊢
    exact takes_shapeOf_cons.2 ⟨a, _, rfl, ha, hslash⟩

/-- With a dot and a star behind it a text is read as other parts, which take all that the parts of the text take. -/
theorem Sound.exists_dotStar (hs : s.Sound) (h : s.finish = .ok parts) : ∃ s₁ s₂ front, s.step '.' = .ok s₁ ∧
    s₁.step '*' = .ok s₂ ∧ s₂.finish = .ok (.anyText :: .char '.' :: front) ∧
    (parts = [.stepsFirst] ∨ ∀ u, (shapeOf parts).Takes u → (shapeOf front).Takes u) := by
  obtain ⟨hg, ⟨hm, rfl⟩ | ⟨front, hm, rfl⟩ | ⟨front, hm, hp⟩⟩ := of_finish h
  · obtain ⟨s₁, s₂, h₁, h₂, h₃⟩ := finish_dotStar hg
    refine ⟨s₁, s₂, s.parts, ?_, h₂, h₃, Or.inr fun _ hu => hu⟩
    simp only [State.step, hm, h₁]
  · obtain ⟨s₁, s₂, h₁, h₂, h₃⟩ := finish_dotStar (s := s.push .anyText) hg
    refine ⟨s₁, s₂, .anyText :: s.parts, ?_, h₂, h₃, Or.inr fun _ hu => hu⟩
    simp only [State.step, hm]
    exact h₁
  · simp only [Sound, hm] at hs
    obtain ⟨s₁, s₂, h₁, h₂, h₃⟩ := finish_dotStar (s := s.pushStars) hg
    refine ⟨s₁, s₂, .anyText :: .anyText :: s.parts, ?_, h₂, h₃, ?_⟩
    · simp only [State.step, hm]
      rw [stepStars_dot hg, h₁]
    rcases hp with hp | ⟨hb, rfl⟩ | rfl
    · exact Or.inl hp
    · have hslash : front = some '/' := by simpa [stepBegins, hg] using hb
      obtain ⟨p, rest, hparts, hp⟩ := hs.1 hslash
      exact Or.inr fun u hu => takes_stars_of_pushSteps hparts hp hu
    · exact Or.inr fun _ hu => hu

end State

variable {text : String} {glob content : Shape}

/-- A glob takes what the parts take that its text is read as, or everything if it is two stars. -/
theorem exists_of_read (h : read text = .ok glob) : ∃ s parts, text.toList.foldlM State.step .start = .ok s ∧
    s.finish = .ok parts ∧
    (parts = [.stepsFirst] ∧ glob = .anyText ∨ parts ≠ [.stepsFirst] ∧ glob = shapeOf parts) := by
  unfold read at h
  rcases hs : text.toList.foldlM State.step .start with err | s <;> rw [hs] at h
  · cases h
  rcases hp : s.finish with err | parts <;> simp only [bind, Except.bind, hp] at h
  · cases h
  refine ⟨s, parts, rfl, hp, ?_⟩
  split at h
  · cases h
    exact Or.inl ⟨rfl, rfl⟩
  next hne =>
    cases h
    exact Or.inr ⟨hne, rfl⟩

/-- The glob of a text with a dot and a star behind it takes all that the glob of the text takes, with a dot and
anything behind that. -/
theorem exists_content (hg : read text = .ok glob) (hc : read (text ++ ".*") = .ok content) :
    ∃ front, content = shapeOf (.anyText :: .char '.' :: front) ∧
      (glob = .anyText ∨ ∀ u, glob.Takes u → (shapeOf front).Takes u) := by
  obtain ⟨s, parts, hs, hp, hglob⟩ := exists_of_read hg
  obtain ⟨s₁, s₂, front, h₁, h₂, h₃, htakes⟩ := (State.Sound.start.foldlM hs).exists_dotStar hp
  obtain ⟨s', parts', hs', hp', hcontent⟩ := exists_of_read hc
  have happend : (text ++ ".*").toList.foldlM State.step .start = .ok s₂ := by
    rw [String.toList_append, List.foldlM_append, hs, show ".*".toList = ['.', '*'] from rfl]
    simp [h₁, h₂, bind, Except.bind, pure, Except.pure]
  obtain rfl : s₂ = s' := Except.ok.inj (happend.symm.trans hs')
  obtain rfl : _ = parts' := Except.ok.inj (h₃.symm.trans hp')
  refine ⟨front, by simpa using hcontent, ?_⟩
  rcases hglob with ⟨_, rfl⟩ | ⟨hne, rfl⟩
  · exact Or.inl rfl
  · exact Or.inr (htakes.resolve_left hne)

end NameGlob

/-! ## Patterns -/

namespace ModuleName

/-- A name in a package is the name of the package with a dot and the last component behind it. -/
theorem child_basename {n package : ModuleName} (h : n.package? = some package) : package.child n.basename = n := by
  have hcomponents : (package.child n.basename).components = n.components := by
    have hne : n.components ≠ [] := by
      intro hnil
      simp [package?, hnil] at h
    have hlast : n.basename = n.components.getLast hne := by simp [basename, List.getLast?_eq_some_getLast hne]
    have hdot : '.' ∉ n.basename.toList := by
      rw [hlast]
      exact Text.not_mem_of_mem_fields (List.getLast_mem hne)
    rw [components_child, components_package? h, Text.fields_of_not_mem hdot, hlast, List.dropLast_concat_getLast]
  exact eq_of_components hcomponents

/-- The bytes of a name in a package. -/
theorem bytes_child (n : ModuleName) (x : String) :
    (n.child x).text.toUTF8.toList = n.text.toUTF8.toList ++ (String.utf8EncodeChar '.' ++ x.toUTF8.toList) := by
  rw [Text.bytes_eq, Text.bytes_eq, Text.bytes_eq]
  simp [child]

/-- Whatever lies in a package that has a name or lies below it lies below that name. -/
theorem isBelow_child {n : ModuleName} {top : String} (h : n.text = top ∨ n.isBelow top = true) (x : String) :
    (n.child x).isBelow top = true := by
  unfold isBelow Text.startsWith at *
  rw [List.isPrefixOf_iff_prefix] at *
  have hchild : (n.child x).text.toList = n.text.toList ++ ('.' :: x.toList) := by simp [child]
  rw [hchild]
  rcases h with rfl | h
  · exact ⟨x.toList, by simp⟩
  · exact h.trans (List.prefix_append _ _)

end ModuleName

namespace NamePattern

variable {p : NamePattern} {n : ModuleName}

/-- A pattern hits a name that is the same, that lies below it, or that one of its two globs fits. -/
theorem isSome_hitKind? : (p.hitKind? n).isSome ↔
    (n.text = p.text ∨ n.isBelow p.text = true) ∨ p.glob.fits n.text = true ∨ p.contentGlob.fits n.text = true := by
  unfold hitKind?
  split
  next h => simp [beq_iff_eq.1 h]
  split
  next h => simp [h]
  split
  next h => simp [h]
  split
  next h => simp [h]
  · simp_all

/-- A pattern is read with its two globs. -/
theorem globs_of_ofText {text : String} (h : ofText text = .ok p) :
    NameGlob.read text = .ok p.glob ∧ NameGlob.read (text ++ ".*") = .ok p.contentGlob := by
  have hread : ∀ {glob : String} {shape : Shape}, readGlob glob = .ok shape → NameGlob.read glob = .ok shape := by
    intro glob shape h
    unfold readGlob at h
    split at h
    next hr =>
      cases h
      exact hr
    · cases h
  unfold ofText at h
  rcases hg : readGlob text with err | glob <;> simp only [hg, bind, Except.bind] at h
  · cases h
  rcases hc : readGlob (text ++ ".*") with err | content <;> simp only [hc] at h
  · cases h
  cases h
  exact ⟨hread hg, hread hc⟩

/-- A pattern that was read takes whatever lies in a package that it takes. -/
theorem isSome_hitKind?_child {text : String} (hp : ofText text = .ok p) (h : (p.hitKind? n).isSome) (x : String) :
    (p.hitKind? (n.child x)).isSome := by
  obtain ⟨hglob, hcontent⟩ := globs_of_ofText hp
  obtain ⟨front, hfront, htakes⟩ := NameGlob.exists_content hglob hcontent
  rw [isSome_hitKind?] at h ⊢
  rcases h with h | h | h
  · exact Or.inl (Or.inr (ModuleName.isBelow_child h x))
  · -- the glob takes the package, so it takes everything or the second glob takes what lies in the package
    right
    rcases htakes with hall | htakes
    · exact Or.inl (Shape.fits_iff.2 (hall ▸ Shape.takes_anyText))
    · right
      rw [Shape.fits_iff, ModuleName.bytes_child, hfront, ← List.append_assoc]
      refine NameGlob.takes_push_anyText (NameGlob.takes_shapeOf_cons.2 ⟨_, _, rfl, ?_, Shape.takes_char.2 rfl⟩)
      exact htakes _ (Shape.fits_iff.1 h)
  · -- the second glob ends in a star
    right; right
    rw [Shape.fits_iff, hfront] at h ⊢
    obtain ⟨u, v, huv, hu, _⟩ := NameGlob.takes_shapeOf_cons.1 h
    rw [ModuleName.bytes_child, huv, List.append_assoc]
    exact NameGlob.takes_push_anyText hu

end NamePattern

namespace NamePatterns

variable {texts : List String} {ps : NamePatterns} {n package : ModuleName}

/-- A list of patterns takes a name if one of them hits it. -/
theorem takes_iff : ps.takes n = true ↔ ∃ p ∈ ps, (p.hitKind? n).isSome := by
  simp [takes, firstHit, NamePattern.hit?]

/-- Patterns that were read take whatever lies in a package that they take. -/
theorem takes_of_package? (hps : ofTexts texts = .ok ps) (h : n.package? = some package)
    (ht : ps.takes package = true) : ps.takes n = true := by
  obtain ⟨p, hp, hhit⟩ := takes_iff.1 ht
  obtain ⟨text, _, htext⟩ := exists_of_mem_mapM hps hp
  rw [← ModuleName.child_basename h]
  exact takes_iff.2 ⟨p, hp, NamePattern.isSome_hitKind?_child htext hhit n.basename⟩

/-- Patterns that were read take whatever lies below a package that they take. -/
theorem takes_of_mem_parentPackages (hps : ofTexts texts = .ok ps) (h : package ∈ n.parentPackages)
    (ht : ps.takes package = true) : ps.takes n = true := by
  have hup : ∀ bound (n : ModuleName), package ∈ ModuleName.enclosingUpTo bound n → ps.takes n = true := by
    intro bound
    induction bound with
    | zero => exact fun _ h => nomatch h
    | succ bound ih =>
      intro n h
      unfold ModuleName.enclosingUpTo at h
      split at h
      · cases h
      next parent hparent =>
        refine takes_of_package? hps hparent ?_
        rcases List.mem_cons.1 h with rfl | h
        · exact ht
        · exact ih parent h
  exact hup _ n (List.mem_reverse.1 h)

/-! ## The pattern that decides -/

/-- The place in the list of the pattern that decides about a name: the first that takes it. -/
def decider? (ps : NamePatterns) (n : ModuleName) : Option Nat :=
  ps.findIdx? fun p => (p.hit? n).isSome

/-- The hit on a name is that of the pattern that decides about it. -/
theorem firstHit_eq (ps : NamePatterns) (n : ModuleName) :
    ps.firstHit n = (ps.decider? n).bind fun i => ps[i]?.bind fun p => p.hit? n := by
  unfold firstHit decider?
  induction ps with
  | nil => rfl
  | cons p ps ih =>
    rw [List.findSome?_cons, List.findIdx?_cons]
    cases hhit : p.hit? n with
    | some hit => simp [hhit]
    | none =>
      rw [ih]
      cases ps.findIdx? fun p => (p.hit? n).isSome with
      | none => rfl
      | some i => rfl

/-- If every pattern that takes a name takes another one too, then the one that decides about the other name stands no
later in the list. -/
theorem exists_decider?_le {m : ModuleName} (h : ∀ p ∈ ps, (p.hit? n).isSome → (p.hit? m).isSome) {i : Nat}
    (hi : ps.decider? n = some i) : ∃ j ≤ i, ps.decider? m = some j := by
  obtain ⟨hlt, hidx⟩ := List.findIdx?_eq_some_iff_findIdx_eq.1 hi
  have hle : (ps.findIdx fun p => (p.hit? m).isSome) ≤ i := hidx ▸ List.findIdx_le_findIdx h
  exact ⟨_, hle, List.findIdx?_eq_some_iff_findIdx_eq.2 ⟨by omega, rfl⟩⟩

/-- Patterns that were read cover whole packages: a pattern that takes a name takes that name with a dot and any text
behind it, whichever of the four ways it takes the name in. So the list takes all that lies below a name that it takes, and
what decides about it stands no later in the list than what decides about the name. -/
theorem covers_packages (hps : ofTexts texts = .ok ps) (n : ModuleName) (x : String) :
    (∀ p ∈ ps, (p.hit? n).isSome → (p.hit? (n.child x)).isSome) ∧
      ((ps.firstHit n).isSome → (ps.firstHit (n.child x)).isSome) ∧
      ∀ i, ps.decider? n = some i → ∃ j ≤ i, ps.decider? (n.child x) = some j := by
  have heach : ∀ p ∈ ps, (p.hit? n).isSome → (p.hit? (n.child x)).isSome := by
    intro p hp hhit
    obtain ⟨text, _, htext⟩ := exists_of_mem_mapM hps hp
    rw [NamePattern.hit?, Option.isSome_map] at hhit ⊢
    exact NamePattern.isSome_hitKind?_child htext hhit x
  refine ⟨heach, fun hhit => ?_, fun i hi => exists_decider?_le heach hi⟩
  obtain ⟨p, hp, hkind⟩ := List.findSome?_isSome_iff.1 hhit
  exact List.findSome?_isSome_iff.2 ⟨p, hp, heach p hp hkind⟩

/-- Below a package the patterns that name some of its modules speak before the one that takes the package. -/
theorem covers_packages_narrowed :
    let texts := ["app.{db,web}?", "*[!r].core.**", "app"]
    ∃ ps, ofTexts texts = .ok ps ∧ ps.decider? ⟨"app"⟩ = some 2 ∧
      ((ps.firstHit ⟨"app"⟩).isSome → (ps.firstHit (ModuleName.child ⟨"app"⟩ "db2.schema")).isSome) ∧
      ps.decider? (ModuleName.child ⟨"app"⟩ "db2.schema") = some 0 := by
  intro texts
  have hread : ∃ ps, ofTexts texts = .ok ps ∧ ps.decider? ⟨"app"⟩ = some 2 ∧
      ps.decider? (ModuleName.child ⟨"app"⟩ "db2.schema") = some 0 := ⟨_, rfl, by decide +kernel, by decide +kernel⟩
  obtain ⟨ps, hps, htop, hbelow⟩ := hread
  exact ⟨ps, hps, htop, (covers_packages hps ⟨"app"⟩ "db2.schema").2.1, hbelow⟩

end NamePatterns

end ImportClosure
