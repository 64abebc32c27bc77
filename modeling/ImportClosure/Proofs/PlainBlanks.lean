import ImportClosure.Python.ImportList
import Mathlib.Data.List.TakeDrop
import Mathlib.Data.List.TakeWhile

/-!
# Blanks in plain sources

A line of a plain source is read from its words and signs (`readLine?_unspaced`). Blanks around a dot do not change them, so
the source says the same with and without these blanks, but for the path behind `from`, which is kept as it is written
(`read?_unspaced`, `read?_eq`).
-/

namespace ImportClosure

/-! ## Blanks -/

namespace Text

/-- A text without its blanks. -/
def unspaced (s : List Char) : List Char :=
  s.filter fun c => !isBlank c

/-- Blanks are left out piece by piece. -/
@[simp] theorem unspaced_append (s s' : List Char) : unspaced (s ++ s') = unspaced s ++ unspaced s' :=
  List.filter_append ..

/-- Without its blanks a text has none. -/
@[simp] theorem unspaced_unspaced (s : List Char) : unspaced (unspaced s) = unspaced s := by
  simp [unspaced]

/-- Nothing is left of blanks. -/
theorem unspaced_eq_nil {s : List Char} (h : ∀ c ∈ s, isBlank c = true) : unspaced s = [] :=
  List.filter_eq_nil_iff.2 fun c hc => by simp [h c hc]

/-- A text without blanks stays as it is. -/
theorem unspaced_eq_self {s : List Char} (h : ∀ c ∈ s, isBlank c = false) : unspaced s = s :=
  List.filter_eq_self.2 fun c hc => by simp [h c hc]

/-- Blanks at the front are left out anyway. -/
@[simp] theorem unspaced_dropWhile (s : List Char) : unspaced (s.dropWhile isBlank) = unspaced s := by
  have hs : unspaced (s.takeWhile isBlank ++ s.dropWhile isBlank) = unspaced s := by rw [List.takeWhile_append_dropWhile]
  rwa [unspaced_append, unspaced_eq_nil fun c hc => List.mem_takeWhile_imp hc, List.nil_append] at hs

theorem inBounds_nil (n : Nat) : inBounds [] n = false :=
  rfl

/-- A class begins at its first bound and ends before the second. -/
theorem inBounds_cons_cons (a b : Nat) (bounds : List Nat) (n : Nat) :
    inBounds (a :: b :: bounds) n = (decide (a ≤ n) && (decide (n < b) || inBounds bounds n)) := by
  unfold inBounds
  by_cases ha : a ≤ n
  · by_cases hb : b ≤ n
    · simp [ha, hb, Nat.not_lt.2 hb, Nat.add_assoc]
    · simp [ha, hb, Nat.lt_of_not_le hb]
  · simp [ha]

/-- The code points of the blanks beyond ASCII. -/
def farBlanks : List Nat :=
  [133, 160, 5760, 8192, 8193, 8194, 8195, 8196, 8197, 8198, 8199, 8200, 8201, 8202, 8232, 8233, 8239, 8287, 12288]

/-- The blanks beyond ASCII are those that are listed. -/
theorem mem_farBlanks {n : Nat} (h : inBounds blankBounds n = true) : n ∈ farBlanks := by
  simp only [blankBounds, inBounds_cons_cons, inBounds_nil, Bool.and_eq_true, Bool.or_eq_true, decide_eq_true_eq,
    Bool.false_eq_true, or_false] at h
  simp only [farBlanks, List.mem_cons, List.not_mem_nil, or_false]
  omega

/-- A blank is no part of a word. -/
theorem not_word_of_isBlank {c : Char} (h : isBlank c = true) : isWordStart c = false ∧ isWordContinue c = false := by
  unfold isBlank at h
  split at h
  next hascii =>
    have hc : c = ' ' ∨ (9 ≤ c.toNat ∧ c.toNat ≤ 13) := by simpa using h
    rcases hc with rfl | ⟨hlo, hhi⟩
    · decide
    · have hn : c.toNat = 9 ∨ c.toNat = 10 ∨ c.toNat = 11 ∨ c.toNat = 12 ∨ c.toNat = 13 := by omega
      rw [← Char.ofNat_toNat c]
      rcases hn with hn | hn | hn | hn | hn <;> rw [hn] <;> decide
  next hfar =>
    have hall : ∀ n ∈ farBlanks, inBounds wordStartBounds n = false ∧ inBounds wordContinueBounds n = false := by
      decide +kernel
    rw [isWordStart, isWordContinue, if_neg hfar, if_neg hfar]
    exact hall _ (mem_farBlanks h)

end Text

/-- A statement with the blanks of its path left out. -/
def ImportStatement.unspaced (i : ImportStatement) : ImportStatement :=
  { i with path := String.ofList (Text.unspaced i.path.toList) }

namespace Python.PlainSource

/-! ## Words and signs -/

namespace Piece

/-- A word or sign without the blanks in front of it. -/
def bare (p : Piece) : Piece :=
  ⟨[], p.text⟩

@[simp] theorem is_bare (text : String) (p : Piece) : p.bare.is text = p.is text :=
  rfl

@[simp] theorem isName_bare (p : Piece) : p.bare.isName = p.isName :=
  rfl

/-- What is known of the pieces of a line: blanks stand in front of it, and if it is not a single character it is made of
the characters of words. -/
structure WellMade (p : Piece) : Prop where
  blanks : ∀ c ∈ p.blanks, Text.isBlank c = true
  text : p.text.length = 1 ∨ ∀ c ∈ p.text, Text.isWordContinue c = true

/-- There is no blank in a name. -/
theorem WellMade.unspaced_text {p : Piece} (h : p.WellMade) (hname : p.isName = true) :
    Text.unspaced p.text = p.text := by
  refine Text.unspaced_eq_self fun c hc => ?_
  rw [← Bool.not_eq_true]
  intro hblank
  obtain ⟨hstart, hcontinue⟩ := Text.not_word_of_isBlank hblank
  rcases h.text with hone | hall
  · obtain ⟨d, hd⟩ := List.length_eq_one_iff.1 hone
    rw [hd, List.mem_singleton] at hc
    simp [isName, hd, ← hc, hstart] at hname
  · rw [hall c hc] at hcontinue
    cases hcontinue

/-- The pieces of a line are well made. -/
theorem wellMade_of_mem_ofLine {line : List Char} {p : Piece} (h : p ∈ ofLine line) : p.WellMade := by
  induction line generalizing p with
  | nil => cases h
  | cons c line ih =>
    rw [ofLine, List.foldr_cons] at h
    change p ∈ addFront c (ofLine line) at h
    have hone : WellMade ⟨[], [c]⟩ := ⟨nofun, Or.inl rfl⟩
    have hblank : c = ' ' ∨ c = '\t' → Text.isBlank c = true := by rintro (rfl | rfl) <;> decide
    dsimp only [addFront] at h
    split at h
    · cases h
    cases hl : ofLine line with
    | nil =>
      simp only [hl] at h
      split at h
      · cases h
      · rwa [List.mem_singleton.1 h]
    | cons q more =>
      have hq : q.WellMade := ih (hl ▸ List.mem_cons_self)
      have hmore : ∀ p ∈ more, p.WellMade := fun p hp => ih (hl ▸ List.mem_cons_of_mem q hp)
      simp only [hl] at h
      split at h
      next hc =>
        rcases List.mem_cons.1 h with rfl | hp
        · exact ⟨List.forall_mem_cons.2 ⟨hblank hc, hq.blanks⟩, hq.text⟩
        · exact hmore p hp
      · split at h
        next hjoin =>
          obtain ⟨hc, _, hhead⟩ := hjoin
          rcases List.mem_cons.1 h with rfl | hp
          · refine ⟨nofun, Or.inr (List.forall_mem_cons.2 ⟨hc, ?_⟩)⟩
            rcases hq.text with hone | hall
            · obtain ⟨d, hd⟩ := List.length_eq_one_iff.1 hone
              rw [hd] at hhead ⊢
              exact List.forall_mem_singleton.2 hhead
            · exact hall
          · exact hmore p hp
        · rcases List.mem_cons.1 h with rfl | hp
          · exact hone
          · exact ih (hl ▸ hp)

theorem betweenCommas_bare (ps : List Piece) :
    betweenCommas (ps.map bare) = (betweenCommas ps).map (List.map bare) := by
  induction ps with
  | nil => rfl
  | cons p ps ih =>
    rw [List.map_cons, betweenCommas, betweenCommas, is_bare, ih]
    split
    · rfl
    · cases betweenCommas ps <;> rfl

theorem any_is_getLast?_bare (text : String) (ps : List Piece) :
    (ps.map bare).getLast?.any (is text) = ps.getLast?.any (is text) := by
  rw [List.getLast?_map]
  cases ps.getLast? <;> rfl

theorem inBrackets?_bare (ps : List Piece) : inBrackets? (ps.map bare) = (inBrackets? ps).map (List.map bare) := by
  cases ps with
  | nil => rfl
  | cons p ps =>
    rw [List.map_cons, inBrackets?, inBrackets?, is_bare, any_is_getLast?_bare, ← List.map_dropLast]
    dsimp only
    rw [any_is_getLast?_bare]
    split
    · split
      · exact congrArg some List.map_dropLast.symm
      · rfl
    · rfl

end Piece

/-! ## Reading without blanks -/

namespace DottedPath

/-- A path as it is written without blanks. -/
def bare (path : DottedPath) : DottedPath :=
  ⟨path.plain, path.plain⟩

/-- The blanks do not matter to where a path ends, nor to its plain form. -/
theorem read?_bare (ps : List Piece) :
    read? (ps.map Piece.bare) = (read? ps).map fun found => (found.1.bare, found.2.map Piece.bare) := by
  fun_induction read? ps with
  | case1 => rfl
  | case2 p hname =>
    rw [List.map_singleton, read?, Piece.isName_bare, if_pos hname]
    rfl
  | case3 p hname =>
    rw [List.map_singleton, read?, Piece.isName_bare, if_neg hname]
    rfl
  | case4 p q rest hname =>
    rw [List.map_cons, List.map_cons, read?, Piece.isName_bare, if_pos hname]
    rfl
  | case5 p q rest hname hdot ih =>
    rw [List.map_cons, List.map_cons, read?, Piece.isName_bare, if_neg hname, Piece.is_bare, if_pos hdot, ih]
    cases read? rest with
    | none => rfl
    | some found => simp [bare, behind, Piece.bare]
  | case6 p q rest hname hdot =>
    rw [List.map_cons, List.map_cons, read?, Piece.isName_bare, if_neg hname, Piece.is_bare, if_neg hdot]
    rfl

/-- The plain form of a path is what is written without the blanks. -/
theorem unspaced_written {ps rest : List Piece} {path : DottedPath} (hps : ∀ p ∈ ps, p.WellMade)
    (h : read? ps = some (path, rest)) : Text.unspaced path.written = path.plain := by
  have hname : ∀ {p : Piece}, p.WellMade → p.isName = true → Text.unspaced (ofName p).written = p.text := by
    intro p hp hn
    rw [ofName, Text.unspaced_append, Text.unspaced_eq_nil hp.blanks, hp.unspaced_text hn, List.nil_append]
  fun_induction read? ps generalizing path with
  | case1 => cases h
  | case2 p hn =>
    cases h
    exact hname (hps p List.mem_cons_self) hn
  | case3 => cases h
  | case4 => cases h
  | case5 p q more hn hdot ih =>
    obtain ⟨⟨path', rest'⟩, hread, heq⟩ := Option.map_eq_some_iff.1 h
    cases heq
    have hp := hps p List.mem_cons_self
    have hq := hps q (List.mem_cons_of_mem p List.mem_cons_self)
    have hpath := ih (fun r hr => hps r (List.mem_cons_of_mem p (List.mem_cons_of_mem q hr))) hread
    simp only [behind, Text.unspaced_append, Text.unspaced_eq_nil hp.blanks, Text.unspaced_eq_nil hq.blanks,
      hp.unspaced_text (by simpa using hn), List.nil_append, List.append_nil]
    rw [← hpath]
    rfl
  | case6 p q more hn =>
    cases h
    exact hname (hps p List.mem_cons_self) (by simpa using hn)

theorem readClause?_bare (ps : List Piece) : readClause? (ps.map Piece.bare) = (readClause? ps).map bare := by
  unfold readClause?
  rw [read?_bare]
  rcases read? ps with _ | ⟨path, _ | ⟨as, _ | ⟨name, _ | ⟨_, _⟩⟩⟩⟩ <;> try rfl
  change (if as.is "as" ∧ name.isName then some path.bare else none) =
    (if as.is "as" ∧ name.isName then some path else none).map bare
  split <;> rfl

/-- The paths behind `import` are read without their blanks. -/
theorem readClauses?_bare (ps : List Piece) : readClauses? (ps.map Piece.bare) = readClauses? ps := by
  unfold readClauses?
  rw [Piece.betweenCommas_bare, List.mapM_map]
  refine congrArg (fun f => List.mapM f (Piece.betweenCommas ps)) (funext fun clause => ?_)
  rw [Function.comp_apply, readClause?_bare, Option.map_map]
  rfl

end DottedPath

theorem readNames?_bare (ps : List Piece) : readNames? (ps.map Piece.bare) = readNames? ps := by
  unfold readNames?
  rw [Piece.inBrackets?_bare]
  cases Piece.inBrackets? ps with
  | some names => exact DottedPath.readClauses?_bare names
  | none =>
    rcases ps with _ | ⟨p, _ | ⟨q, ps⟩⟩
    · rfl
    · have hclauses := DottedPath.readClauses?_bare [p]
      rw [List.map_singleton] at hclauses
      simp only [Option.map_none, List.map_singleton, Piece.is_bare, hclauses]
    · exact DottedPath.readClauses?_bare (p :: q :: ps)

/-- The blanks show in the path of the module behind `from`, and nowhere else. -/
theorem readModule?_bare {ps : List Piece} (hps : ∀ p ∈ ps, p.WellMade) :
    readModule? (ps.map Piece.bare) =
      (readModule? ps).map fun found => (found.1, Text.unspaced found.2.1, found.2.2.map Piece.bare) := by
  have hspan : (ps.map Piece.bare).span (Piece.is ".") =
      ((ps.takeWhile (Piece.is ".")).map Piece.bare, (ps.dropWhile (Piece.is ".")).map Piece.bare) := by
    rw [List.span_eq_takeWhile_dropWhile, List.takeWhile_map, List.dropWhile_map]
    rfl
  have hrest : ∀ p ∈ ps.dropWhile (Piece.is "."), p.WellMade := fun p hp => hps p (List.dropWhile_subset _ hp)
  unfold readModule?
  rw [hspan, List.span_eq_takeWhile_dropWhile]
  generalize ps.dropWhile (Piece.is ".") = rest at hrest
  have hpath : ∀ level : Nat, ((DottedPath.read? (rest.map Piece.bare)).map fun found => (level, found.1.written, found.2)) =
      ((DottedPath.read? rest).map fun found => (level, found.1.written, found.2)).map
        fun found => (found.1, Text.unspaced found.2.1, found.2.2.map Piece.bare) := by
    intro level
    rw [DottedPath.read?_bare]
    cases h : DottedPath.read? rest with
    | none => rfl
    | some found =>
      simp only [Option.map_some, DottedPath.unspaced_written hrest h]
      rfl
  cases ps.takeWhile (Piece.is ".") with
  | nil => exact hpath 0
  | cons dot dots =>
    have hhead : (rest.map Piece.bare).head?.any (Piece.is "import") = rest.head?.any (Piece.is "import") := by
      cases rest <;> rfl
    simp only [List.map_cons, hhead]
    split
    · simp [Text.unspaced]
    · rw [List.length_cons, List.length_map, ← List.length_cons]
      exact hpath _

/-- What stands behind `from` is read alike with and without its blanks, but for the blanks of the path. -/
theorem readFrom?_bare {ps : List Piece} (hps : ∀ p ∈ ps, p.WellMade) (line : Nat) :
    (readFrom? line (ps.map Piece.bare)).map ImportStatement.unspaced =
      (readFrom? line ps).map ImportStatement.unspaced := by
  unfold readFrom?
  rw [readModule?_bare hps]
  rcases readModule? ps with _ | ⟨level, path, _ | ⟨word, names⟩⟩
  · rfl
  · rfl
  simp only [Option.map_some, List.map_cons, Piece.is_bare, readNames?_bare]
  split
  · rw [Option.map_map, Option.map_map]
    refine congrArg (fun f => Option.map f (readNames? names)) (funext fun names => ?_)
    simp [ImportStatement.unspaced]
  · rfl

/-! ## Lines -/

/-- Two lines with the same words and signs. The blanks in front of the first may differ only if it is no word. -/
inductive Alike : List Piece → List Piece → Prop where
  | nil : Alike [] []
  | cons {p q : Piece} {ps qs : List Piece} (htext : p.text = q.text)
      (hblanks : p.blanks = q.blanks ∨ p.text.head?.any Text.isWordContinue = false)
      (hrest : ps.map Piece.text = qs.map Piece.text) : Alike (p :: ps) (q :: qs)

/-- Pieces with the same texts are the same without their blanks. -/
theorem map_bare_eq {ps qs : List Piece} (h : ps.map Piece.text = qs.map Piece.text) :
    ps.map Piece.bare = qs.map Piece.bare := by
  have hbare := congrArg (List.map (Piece.mk [])) h
  rwa [List.map_map, List.map_map] at hbare

theorem is_congr {p q : Piece} (h : p.text = q.text) (word : String) : p.is word = q.is word := by
  rw [Piece.is, Piece.is, h]

/-- What does not begin like a word is no word. -/
theorem is_eq_false_of_sign {p : Piece} (h : p.text.head?.any Text.isWordContinue = false) (word : String)
    (hword : word.toList.head?.any Text.isWordContinue = true) : p.is word = false := by
  rw [Piece.is, beq_eq_false_iff_ne]
  intro heq
  rw [heq, hword] at h
  cases h

/-- A line that is laid out in another way says the same, but for the blanks of a path behind `from`. -/
theorem readLine?_unspaced {l l' : List Char} (h : Alike (Piece.ofLine l) (Piece.ofLine l')) (line : Nat) :
    (readLine? line l).map (List.map ImportStatement.unspaced) =
      (readLine? line l').map (List.map ImportStatement.unspaced) := by
  have hmade : ∀ p ∈ Piece.ofLine l, p.WellMade := fun _ => Piece.wellMade_of_mem_ofLine
  have hmade' : ∀ p ∈ Piece.ofLine l', p.WellMade := fun _ => Piece.wellMade_of_mem_ofLine
  unfold readLine?
  generalize Piece.ofLine l = ps at h hmade
  generalize Piece.ofLine l' = qs at h hmade'
  cases h with
  | nil => rfl
  | @cons p q ps qs htext hblanks hrest =>
    have hbare := map_bare_eq hrest
    have hpaths : DottedPath.readClauses? ps = DottedPath.readClauses? qs := by
      rw [← DottedPath.readClauses?_bare, hbare, DottedPath.readClauses?_bare]
    have hfrom : (readFrom? line ps).map ImportStatement.unspaced = (readFrom? line qs).map ImportStatement.unspaced := by
      rw [← readFrom?_bare fun p hp => hmade p (List.mem_cons_of_mem _ hp), hbare,
        readFrom?_bare fun p hp => hmade' p (List.mem_cons_of_mem _ hp)]
    rcases hblanks with hblanks | hsign
    · simp only [hblanks, is_congr htext, hpaths]
      split
      · rfl
      · split
        · rfl
        · split
          · have hone := congrArg (Option.map List.singleton) hfrom
            rw [Option.map_map, Option.map_map] at hone
            rw [Option.map_map, Option.map_map]
            exact hone
          · rfl
    · simp [← is_congr htext, is_eq_false_of_sign hsign "import" (by decide), is_eq_false_of_sign hsign "from" (by decide)]

/-- A line that does not begin with `from` says the same however it is laid out. -/
theorem readLine?_eq {l l' : List Char} (h : Alike (Piece.ofLine l) (Piece.ofLine l'))
    (hfrom : ∀ first, (Piece.ofLine l).head? = some first → first.blanks = [] → first.is "from" = false) (line : Nat) :
    readLine? line l = readLine? line l' := by
  unfold readLine?
  generalize Piece.ofLine l = ps at h hfrom
  generalize Piece.ofLine l' = qs at h
  cases h with
  | nil => rfl
  | @cons p q ps qs htext hblanks hrest =>
    have hpaths : DottedPath.readClauses? ps = DottedPath.readClauses? qs := by
      rw [← DottedPath.readClauses?_bare, map_bare_eq hrest, DottedPath.readClauses?_bare]
    rcases hblanks with hblanks | hsign
    · simp only [← hblanks, ← is_congr htext, hpaths]
      split
      · rfl
      next hfirst => simp [hfrom p rfl (Decidable.not_not.1 hfirst)]
    · simp [← is_congr htext, is_eq_false_of_sign hsign "import" (by decide), is_eq_false_of_sign hsign "from" (by decide)]

/-! ## Blanks around a dot -/

namespace Piece

/-- A blank between words and signs. -/
def IsGap (w : List Char) : Prop :=
  ∀ c ∈ w, c = ' ' ∨ c = '\t'

theorem addFront_blank {c : Char} (hc : c = ' ' ∨ c = '\t') (p : Piece) (ps : List Piece) :
    addFront c (p :: ps) = { p with blanks := c :: p.blanks } :: ps := by
  have hhash : c ≠ '#' := by rintro rfl; revert hc; decide
  dsimp only [addFront]
  rw [if_neg hhash, if_pos hc]

/-- Blanks in front of a line change its first word or sign only, and that only in its blanks. -/
theorem map_text_foldr_gap {w : List Char} (hw : IsGap w) (ps : List Piece) :
    (w.foldr addFront ps).map text = ps.map text := by
  induction w with
  | nil => rfl
  | cons c w ih =>
    obtain ⟨hc, hw⟩ := List.forall_mem_cons.1 hw
    have hrest := ih hw
    rw [List.foldr_cons]
    cases h : w.foldr addFront ps with
    | nil =>
      have hhash : c ≠ '#' := by rintro rfl; revert hc; decide
      dsimp only [addFront]
      rw [if_neg hhash, if_pos hc, ← h]
      exact hrest
    | cons p more =>
      rw [addFront_blank hc, ← hrest, h]
      rfl

/-- A dot is a sign of its own. -/
theorem addFront_dot (ps : List Piece) : addFront '.' ps = ⟨[], ['.']⟩ :: ps := by
  have hblank : ¬('.' = ' ' ∨ '.' = '\t') := by decide
  dsimp only [addFront]
  rw [if_neg (by decide)]
  cases ps with
  | nil => exact if_neg hblank
  | cons p more =>
    dsimp only
    rw [if_neg hblank, if_neg]
    rintro ⟨hword, -⟩
    revert hword
    decide

theorem foldr_gap_cons {w : List Char} (hw : IsGap w) (p : Piece) (ps : List Piece) :
    ∃ blanks, w.foldr addFront (p :: ps) = ⟨blanks, p.text⟩ :: ps := by
  induction w with
  | nil => exact ⟨p.blanks, rfl⟩
  | cons c w ih =>
    obtain ⟨hc, hw⟩ := List.forall_mem_cons.1 hw
    obtain ⟨blanks, h⟩ := ih hw
    exact ⟨c :: blanks, by rw [List.foldr_cons, h, addFront_blank hc]⟩

end Piece

/-- One more character in front of two lines with the same words and signs. -/
theorem Alike.addFront {ps qs : List Piece} (h : Alike ps qs) (c : Char) :
    Alike (Piece.addFront c ps) (Piece.addFront c qs) := by
  cases h with
  | nil =>
    dsimp only [Piece.addFront]
    split
    · exact .nil
    · split
      · exact .nil
      · exact .cons rfl (Or.inl rfl) rfl
  | @cons p q ps qs htext hblanks hrest =>
    dsimp only [Piece.addFront]
    split
    · exact .nil
    · split
      · exact .cons htext (hblanks.imp (congrArg (c :: ·)) id) hrest
      · have hall : (p :: ps).map Piece.text = (q :: qs).map Piece.text := by
          rw [List.map_cons, List.map_cons, htext, hrest]
        rcases hblanks with hblanks | hsign
        · rw [hblanks, htext]
          split
          · exact .cons rfl (Or.inl rfl) hrest
          · exact .cons rfl (Or.inl rfl) hall
        · -- a sign is not joined to a character in front of it
          rw [← htext, hsign, if_neg fun h => Bool.false_ne_true h.2.2, if_neg fun h => Bool.false_ne_true h.2.2]
          exact .cons rfl (Or.inl rfl) hall

/-- A line in which blanks are put around a dot has the same words and signs. -/
theorem alike_ofLine_gap (a b : List Char) {w w' : List Char} (hw : Piece.IsGap w) (hw' : Piece.IsGap w') :
    Alike (Piece.ofLine (a ++ '.' :: b)) (Piece.ofLine (a ++ w ++ '.' :: (w' ++ b))) := by
  have hdot : Alike (Piece.ofLine ('.' :: b)) (Piece.ofLine (w ++ '.' :: (w' ++ b))) := by
    obtain ⟨blanks, hgap⟩ := Piece.foldr_gap_cons hw ⟨[], ['.']⟩ ((w' ++ b).foldr Piece.addFront [])
    simp only [Piece.ofLine, List.foldr_append (l := w), List.foldr_cons, Piece.addFront_dot, hgap]
    refine .cons rfl (Or.inr (by decide)) ?_
    rw [List.foldr_append, Piece.map_text_foldr_gap hw']
  rw [List.append_assoc]
  induction a with
  | nil => exact hdot
  | cons c a ih => exact ih.addFront c

/-! ## Sources -/

/-- The last line of a text, in front of which something lies in its first line, written backwards. -/
def lastLine (before : List Char) : List Char → List Char
  | [] => before.reverse
  | c :: rest => if c = '\n' then lastLine [] rest else lastLine (c :: before) rest

section Lines

variable {β : Type} (g : ImportStatement → β)

/-- Two beginnings of a line that say the same, however the line goes on, may stand for each other in a source. -/
theorem map_readLines?_congr {before before' : List Char} {found found' : List ImportStatement} (line : Nat) (text : List Char)
    (hline : ∀ more line, (readLine? line (before.reverse ++ more)).map (List.map g) =
      (readLine? line (before'.reverse ++ more)).map (List.map g))
    (hfound : found.map g = found'.map g) :
    (readLines? line before found text).map (List.map g) = (readLines? line before' found' text).map (List.map g) := by
  induction text generalizing before before' found found' line with
  | nil =>
    have hlast := hline [] line
    rw [List.append_nil, List.append_nil] at hlast
    have hfront := congrArg (Option.map fun rest => found.reverse.map g ++ rest) hlast
    rw [readLines?, readLines?, Option.map_map, Option.map_map]
    rw [Option.map_map, Option.map_map] at hfront
    simpa [Function.comp_def, hfound] using hfront
  | cons c text ih =>
    rw [readLines?, readLines?]
    by_cases hc : c = '\n'
    · have hlast := hline [] line
      rw [List.append_nil, List.append_nil] at hlast
      rw [if_pos hc, if_pos hc]
      cases hr : readLine? line before.reverse <;> cases hr' : readLine? line before'.reverse <;>
        rw [hr, hr'] at hlast
      · cases hlast
      · cases hlast
      · refine ih _ (fun _ _ => rfl) ?_
        rw [List.map_append, List.map_append, List.map_reverse, List.map_reverse, Option.some.inj hlast, hfound]
    · rw [if_neg hc, if_neg hc]
      refine ih _ (fun more line => ?_) hfound
      rw [List.reverse_cons, List.reverse_cons, List.append_assoc, List.append_assoc]
      exact hline (c :: more) line

theorem readLines?_gap {w : List Char} (hw : Piece.IsGap w) (line : Nat) (before : List Char)
    (found : List ImportStatement) (text : List Char) :
    readLines? line before found (w ++ text) = readLines? line (w.reverse ++ before) found text := by
  induction w generalizing before with
  | nil => rfl
  | cons c w ih =>
    obtain ⟨hc, hw⟩ := List.forall_mem_cons.1 hw
    have hbreak : c ≠ '\n' := by rintro rfl; revert hc; decide
    rw [List.cons_append, readLines?, if_neg hbreak, ih hw, List.reverse_cons, List.append_assoc]
    rfl

/-- Where blanks around a dot make no difference to its line they make none to a source. -/
theorem map_readLines?_dot {w w' : List Char} (hw : Piece.IsGap w) (hw' : Piece.IsGap w') (a b before : List Char)
    (line : Nat) (found : List ImportStatement)
    (hline : ∀ more line, (readLine? line (lastLine before a ++ '.' :: more)).map (List.map g) =
      (readLine? line (lastLine before a ++ w ++ '.' :: (w' ++ more))).map (List.map g)) :
    (readLines? line before found (a ++ '.' :: b)).map (List.map g) =
      (readLines? line before found (a ++ w ++ '.' :: (w' ++ b))).map (List.map g) := by
  induction a generalizing before line found with
  | nil =>
    rw [List.nil_append, List.nil_append, readLines?_gap hw, readLines?, readLines?, if_neg (by decide),
      if_neg (by decide), readLines?_gap hw']
    refine map_readLines?_congr g line b (fun more line => ?_) rfl
    simpa [lastLine] using hline more line
  | cons c a ih =>
    rw [List.cons_append, List.cons_append, List.cons_append, readLines?, readLines?]
    rw [lastLine] at hline
    by_cases hc : c = '\n'
    · rw [if_pos hc] at hline
      rw [if_pos hc, if_pos hc]
      cases readLine? line before.reverse with
      | none => rfl
      | some statements => exact ih _ _ _ hline
    · rw [if_neg hc] at hline
      rw [if_neg hc, if_neg hc]
      exact ih _ _ _ hline

/-- Where blanks around a dot make no difference to its line they make none to what is read of a source. -/
theorem map_read?_dot {a w w' : List Char} (hw : Piece.IsGap w) (hw' : Piece.IsGap w') (b : List Char)
    (hline : ∀ more line, (readLine? line (lastLine [] a ++ '.' :: more)).map (List.map g) =
      (readLine? line (lastLine [] a ++ w ++ '.' :: (w' ++ more))).map (List.map g)) :
    (read? (a ++ '.' :: b)).map (List.map g) = (read? (a ++ w ++ '.' :: (w' ++ b))).map (List.map g) := by
  have hcontains : ∀ c, c ≠ ' ' → c ≠ '\t' → (a ++ w ++ '.' :: (w' ++ b)).contains c = (a ++ '.' :: b).contains c := by
    intro c hspace htab
    have hout : ∀ {w : List Char}, Piece.IsGap w → c ∉ w := fun hw hc => (hw c hc).elim hspace htab
    simp [hout hw, hout hw']
  unfold read?
  rw [hcontains '\r' (by decide) (by decide), hcontains '\x00' (by decide) (by decide)]
  split
  · rfl
  · exact map_readLines?_dot g hw hw' a b [] 1 [] hline

end Lines

/-- Blanks around a dot of a plain source make no difference, but for the blanks of paths behind `from`. -/
theorem read?_unspaced {w w' : List Char} (hw : Piece.IsGap w) (hw' : Piece.IsGap w') (a b : List Char) :
    (read? (a ++ '.' :: b)).map (List.map ImportStatement.unspaced) =
      (read? (a ++ w ++ '.' :: (w' ++ b))).map (List.map ImportStatement.unspaced) :=
  map_read?_dot _ hw hw' b fun more line => readLine?_unspaced (alike_ofLine_gap _ more hw hw') line

/-- A line begins with its first word or sign and the blanks in front of it. -/
theorem prefix_of_head?_ofLine {l : List Char} {p : Piece} (h : (Piece.ofLine l).head? = some p) :
    p.blanks ++ p.text <+: l := by
  induction l generalizing p with
  | nil => cases h
  | cons c l ih =>
    have hone : [c] <+: c :: l := ⟨l, rfl⟩
    rw [Piece.ofLine, List.foldr_cons, ← Piece.ofLine] at h
    dsimp only [Piece.addFront] at h
    split at h
    · cases h
    cases hl : Piece.ofLine l with
    | nil =>
      simp only [hl] at h
      split at h
      · cases h
      · cases h
        exact hone
    | cons q more =>
      have hq := ih (p := q) (by rw [hl]; rfl)
      simp only [hl] at h
      split at h
      · cases h
        exact (List.prefix_cons_inj c).2 hq
      · split at h
        next hjoin =>
          cases h
          rw [hjoin.2.1, List.nil_append] at hq
          exact (List.prefix_cons_inj c).2 hq
        · cases h
          exact hone

/-- Blanks around a dot make no difference at all in a line that does not begin with `from`. -/
theorem read?_eq {a w w' : List Char} (hw : Piece.IsGap w) (hw' : Piece.IsGap w') (b : List Char)
    (hfrom : ¬ "from".toList <+: lastLine [] a) : read? (a ++ '.' :: b) = read? (a ++ w ++ '.' :: (w' ++ b)) := by
  have h := map_read?_dot (a := a) id hw hw' b fun more line => ?_
  · rwa [List.map_id_fun, Option.map_id, id, id] at h
  refine congrArg _ (readLine?_eq (alike_ofLine_gap _ more hw hw') (fun first hfirst hblanks => ?_) line)
  rw [← Bool.not_eq_true]
  intro his
  have hpre := prefix_of_head?_ofLine hfirst
  rw [hblanks, List.nil_append, beq_iff_eq.1 his] at hpre
  -- there is no dot in the word, so the word ends in front of the dot
  rcases List.prefix_or_prefix_of_prefix hpre (List.prefix_append _ _) with hword | ⟨rest, hrest⟩
  · exact hfrom hword
  obtain ⟨behind, hbehind⟩ := hpre
  rw [← hrest, List.append_assoc] at hbehind
  cases rest with
  | nil =>
    rw [List.append_nil] at hrest
    exact hfrom (hrest ▸ List.prefix_rfl)
  | cons d rest =>
    obtain ⟨rfl, _⟩ := List.cons.inj (List.append_cancel_left hbehind)
    have hdot : '.' ∈ "from".toList := hrest ▸ List.mem_append_right _ List.mem_cons_self
    revert hdot
    decide

/-! ## The path behind `from` and behind `import` -/

namespace DottedPath

/-- A path ends in front of what is not a dot. -/
theorem read?_append {ps : List Piece} {path : DottedPath} {q : Piece} (h : read? ps = some (path, []))
    (hq : q.is "." = false) (rest : List Piece) : read? (ps ++ q :: rest) = some (path, q :: rest) := by
  fun_induction read? ps generalizing path with
  | case1 => cases h
  | case2 p hname =>
    cases h
    simp [read?, hname, hq]
  | case3 => cases h
  | case4 => cases h
  | case5 p dot more hname hdot ih =>
    obtain ⟨⟨path', rest'⟩, hread, heq⟩ := Option.map_eq_some_iff.1 h
    cases heq
    rw [List.cons_append, List.cons_append, read?, if_neg hname, if_pos hdot, ih hread]
    rfl
  | case6 p q' more hname hdot => cases h

/-- A name is no sign. -/
theorem is_eq_false_of_isName {p : Piece} (h : p.isName = true) {c : Char} (hc : Text.isWordStart c = false) :
    p.is (String.ofList [c]) = false := by
  rw [Piece.is, beq_eq_false_iff_ne, String.toList_ofList]
  intro heq
  simp [Piece.isName, heq, hc] at h

/-- There is no comma in a path. -/
theorem betweenCommas_of_read? {ps : List Piece} {path : DottedPath} (h : read? ps = some (path, [])) :
    Piece.betweenCommas ps = [ps] := by
  have hone : ∀ {p : Piece} {rest : List Piece}, p.is "," = false → Piece.betweenCommas rest = [rest] →
      Piece.betweenCommas (p :: rest) = [p :: rest] := by
    intro p rest hp hrest
    simp [Piece.betweenCommas, hp, hrest]
  fun_induction read? ps generalizing path with
  | case1 => cases h
  | case2 p hname => simp [Piece.betweenCommas, is_eq_false_of_isName hname (c := ',') (by decide)]
  | case3 => cases h
  | case4 => cases h
  | case5 p dot more hname hdot ih =>
    obtain ⟨⟨path', rest'⟩, hread, heq⟩ := Option.map_eq_some_iff.1 h
    cases heq
    have hcomma : dot.is "," = false := by
      rw [Piece.is, beq_iff_eq.1 hdot]
      decide
    exact hone (is_eq_false_of_isName (by simpa using hname) (c := ',') (by decide)) (hone hcomma (ih hread))
  | case6 p q more hname hdot => cases h

end DottedPath

/-- A line that imports a path. -/
def ImportsPath (l : List Char) (ps : List Piece) : Prop :=
  ∃ first, Piece.ofLine l = first :: ps ∧ first.blanks = [] ∧ first.is "import" = true

/-- A line that imports names from a path. -/
def ImportsFrom (l : List Char) (ps names : List Piece) : Prop :=
  ∃ first word, Piece.ofLine l = first :: (ps ++ word :: names) ∧ first.blanks = [] ∧ first.is "from" = true ∧
    word.is "import" = true

/-- Behind `import` the plain form of a path is read. -/
theorem ImportsPath.readLine? {l : List Char} {ps : List Piece} {path : DottedPath} (h : ImportsPath l ps)
    (hpath : DottedPath.read? ps = some (path, [])) (line : Nat) :
    readLine? line l = some [⟨String.ofList path.plain, 0, [], line⟩] := by
  obtain ⟨first, hl, hblanks, himport⟩ := h
  have hclause : DottedPath.readClause? ps = some path := by simp [DottedPath.readClause?, hpath]
  have hclauses : DottedPath.readClauses? ps = some [String.ofList path.plain] := by
    rw [DottedPath.readClauses?, DottedPath.betweenCommas_of_read? hpath]
    simp [hclause]
  simp [PlainSource.readLine?, hl, hblanks, himport, hclauses]

/-- In front of `import` a path is the module. -/
theorem readModule?_path {ps : List Piece} {path : DottedPath} (hpath : DottedPath.read? ps = some (path, []))
    {word : Piece} (hword : word.is "." = false) (rest : List Piece) :
    readModule? (ps ++ word :: rest) = some (0, path.written, word :: rest) := by
  have hread := DottedPath.read?_append hpath hword rest
  obtain ⟨p, more, rfl⟩ : ∃ p more, ps = p :: more := by
    cases ps with
    | nil => cases hpath
    | cons p more => exact ⟨p, more, rfl⟩
  have hname : p.isName = true := by
    cases more <;> simp [DottedPath.read?] at hpath <;> simp [hpath]
  have hdot := DottedPath.is_eq_false_of_isName hname (c := '.') (by decide)
  unfold readModule?
  rw [List.span_eq_takeWhile_dropWhile, List.cons_append, List.takeWhile_cons, List.dropWhile_cons]
  rw [List.cons_append] at hread
  simp [show p.is "." = false from hdot, hread]

/-- Behind `from` a path is read as it is written. -/
theorem ImportsFrom.readLine? {l : List Char} {ps names : List Piece} {path : DottedPath} (h : ImportsFrom l ps names)
    (hpath : DottedPath.read? ps = some (path, [])) (line : Nat) :
    readLine? line l = (readNames? names).map fun names =>
      [⟨String.ofList (path.written.dropWhile Text.isBlank), 0, names, line⟩] := by
  obtain ⟨first, word, hl, hblanks, hfrom, hword⟩ := h
  have hstop : word.is "." = false := by
    rw [Piece.is, beq_iff_eq.1 hword]
    decide
  have himport : first.is "import" = false := by
    rw [Piece.is, beq_iff_eq.1 hfrom]
    decide
  simp [PlainSource.readLine?, hl, hblanks, himport, hfrom, readFrom?, readModule?_path hpath hstop, hword,
    Function.comp_def]

/-- The path behind `from` is the one behind `import`, with the blanks that are written. -/
theorem ImportsFrom.unspaced {l : List Char} {ps ps' names : List Piece} {path path' : DottedPath} (h : ImportsFrom l ps' names)
    (hsame : ps'.map Piece.text = ps.map Piece.text) (hpath : DottedPath.read? ps = some (path, []))
    (hpath' : DottedPath.read? ps' = some (path', [])) :
    Text.unspaced (path'.written.dropWhile Text.isBlank) = path.plain := by
  obtain ⟨first, word, hl, -⟩ := h
  have hmade : ∀ p ∈ ps', p.WellMade := fun p hp =>
    Piece.wellMade_of_mem_ofLine (hl ▸ List.mem_cons_of_mem first (List.mem_append_left _ hp))
  have hbare := DottedPath.read?_bare ps'
  rw [map_bare_eq hsame, DottedPath.read?_bare, hpath, hpath'] at hbare
  rw [Text.unspaced_dropWhile, DottedPath.unspaced_written hmade hpath']
  exact (congrArg DottedPath.plain (Prod.mk.inj (Option.some.inj hbare)).1).symm

end Python.PlainSource

end ImportClosure
