import ImportClosure.Proofs.Fields
import ImportClosure.Proofs.PlainBlanks

/-!
# Trees of plain sources

The reader of plain sources and the grammar read the same imports. A tree spells a plain source if it has a phrase for each
statement, and in it a dotted name for each path, over the words and signs of the line (`Tree.Spells`). Whatever else such a
tree may hold, its imports are those that are read line by line (`Tree.Spells.importsOf_eq`). So where the grammar gives
a plain source a tree without a fault that spells it, the shortcut changes nothing (`readImports_eq_parseImports`).
-/

namespace ImportClosure.Python

/-- Where all members of a list can be read, the first can be, and the others. -/
theorem exists_of_mapM_cons {α β : Type} {f : α → Option β} {a : α} {as : List α} {found : List β}
    (h : (a :: as).mapM f = some found) :
    ∃ first more, f a = some first ∧ as.mapM f = some more ∧ found = first :: more := by
  rw [List.mapM_cons] at h
  obtain ⟨first, hfirst, h⟩ := Option.bind_eq_some_iff.1 h
  obtain ⟨more, hmore, h⟩ := Option.bind_eq_some_iff.1 h
  cases h
  exact ⟨first, more, hfirst, hmore, rfl⟩

namespace PlainSource

/-! ## Words and signs of a list -/

namespace Piece

/-- The text from the first of some words and signs to the last. -/
def written : List Piece → List Char
  | [] => []
  | p :: ps => p.text ++ ps.flatMap fun q => q.blanks ++ q.text

/-- A sign that stands around imported names. -/
def IsListSign (p : Piece) : Prop :=
  ∃ c ∈ [',', '(', ')', '*'], p.text = [c]

/-- A word with a meaning of its own in an import is no name. -/
theorem isName_eq_false {p : Piece} {word : String} (h : p.is word = true) (hword : word ∈ Token.keywords)
    (hsoft : softKeywords.contains word = false) : p.isName = false := by
  rw [← Bool.not_eq_true]
  intro hname
  simp only [isName, Bool.and_eq_true, List.all_eq_true] at hname
  have hfree := hname.2 word hword
  rw [h, hsoft] at hfree
  cases hfree

/-- A sign of a list is no name, and neither a dot nor `as`. -/
theorem IsListSign.spec {p : Piece} (h : p.IsListSign) :
    p.isName = false ∧ p.is "." = false ∧ p.is "as" = false := by
  obtain ⟨c, hc, htext⟩ := h
  simp only [List.mem_cons, List.not_mem_nil, or_false] at hc
  rcases hc with rfl | rfl | rfl | rfl <;> simp [isName, is, htext] <;> decide

/-- A name is neither a dot nor `as`, nor a sign of a list. -/
theorem not_sign_of_isName {p : Piece} (h : p.isName = true) :
    p.is "." = false ∧ p.is "as" = false ∧ ¬ p.IsListSign := by
  refine ⟨DottedPath.is_eq_false_of_isName h (c := '.') (by decide), ?_, fun hsign => ?_⟩
  · rw [← Bool.not_eq_true]
    intro has
    rw [isName_eq_false has (by decide) (by decide)] at h
    cases h
  · rw [hsign.spec.1] at h
    cases h

/-- Among some dots there are no other dots. -/
theorem count_written {ps : List Piece} (hps : ∀ p ∈ ps, p.WellMade) (hdots : ∀ p ∈ ps, p.is "." = true) :
    (written ps).count '.' = ps.length := by
  have hone : ∀ p ∈ ps, p.text = ['.'] ∧ p.blanks.count '.' = 0 := by
    intro p hp
    refine ⟨beq_iff_eq.1 (hdots p hp), List.count_eq_zero.2 fun hmem => ?_⟩
    exact absurd ((hps p hp).blanks '.' hmem) (by decide)
  have hall : ∀ qs : List Piece, (∀ p ∈ qs, p.text = ['.'] ∧ p.blanks.count '.' = 0) →
      (qs.flatMap fun q => q.blanks ++ q.text).count '.' = qs.length := by
    intro qs hqs
    induction qs with
    | nil => rfl
    | cons q qs ih =>
      obtain ⟨⟨htext, hblanks⟩, hqs⟩ := List.forall_mem_cons.1 hqs
      rw [List.flatMap_cons, List.count_append, List.count_append, hblanks, htext, ih hqs, List.length_cons]
      simp [Nat.add_comm]
  cases ps with
  | nil => rfl
  | cons p ps =>
    obtain ⟨⟨htext, _⟩, hps⟩ := List.forall_mem_cons.1 hone
    rw [written, List.count_append, htext, hall ps hps, List.length_cons]
    simp [Nat.add_comm]

/-- Pieces without a comma stand in front of the first of those between commas. -/
theorem exists_betweenCommas_append {cs : List Piece} (hcs : ∀ p ∈ cs, p.is "," = false) (ps : List Piece) :
    ∃ first more, betweenCommas ps = first :: more ∧ betweenCommas (cs ++ ps) = (cs ++ first) :: more := by
  induction cs with
  | nil =>
    cases h : betweenCommas ps with
    | nil =>
      cases ps with
      | nil => cases h
      | cons p ps =>
        unfold betweenCommas at h
        split at h
        · cases h
        · split at h <;> cases h
    | cons first more => exact ⟨first, more, rfl, h⟩
  | cons c cs ih =>
    obtain ⟨hc, hcs⟩ := List.forall_mem_cons.1 hcs
    obtain ⟨first, more, hps, happend⟩ := ih hcs
    exact ⟨first, more, hps, by simp [betweenCommas, hc, happend]⟩

/-- Nothing stands in front of the first comma: there is nothing at all, or the comma is the first piece. -/
theorem of_betweenCommas_nil {ps : List Piece} {others : List (List Piece)} (h : betweenCommas ps = [] :: others) :
    ps = [] ∧ others = [] ∨ ∃ p qs, ps = p :: qs ∧ p.is "," = true ∧ others = betweenCommas qs := by
  cases ps with
  | nil =>
    cases h
    exact Or.inl ⟨rfl, rfl⟩
  | cons p qs =>
    unfold betweenCommas at h
    split at h
    next hp =>
      cases h
      exact Or.inr ⟨p, qs, rfl, hp, rfl⟩
    · split at h <;> cases h

/-- What stands in front of the first comma begins with the first piece. -/
theorem of_betweenCommas_cons {ps first : List Piece} {p : Piece} {others : List (List Piece)}
    (h : betweenCommas ps = (p :: first) :: others) : ∃ qs, ps = p :: qs := by
  cases ps with
  | nil => cases h
  | cons q qs =>
    unfold betweenCommas at h
    split at h
    · cases h
    · split at h <;> cases h <;> exact ⟨_, rfl⟩

end Piece

/-! ## Paths -/

namespace DottedPath

/-- What is behind a path stays so if more follows. -/
theorem read?_append_of_ne {ps rest : List Piece} {path : DottedPath} (h : read? ps = some (path, rest)) (hrest : rest ≠ [])
    (more : List Piece) : read? (ps ++ more) = some (path, rest ++ more) := by
  fun_induction read? ps generalizing path with
  | case1 => cases h
  | case2 p hname =>
    cases h
    exact absurd rfl hrest
  | case3 => cases h
  | case4 => cases h
  | case5 p dot ps hname hdot ih =>
    obtain ⟨⟨path', rest'⟩, hread, heq⟩ := Option.map_eq_some_iff.1 h
    cases heq
    rw [List.cons_append, List.cons_append, read?, if_neg hname, if_pos hdot, ih hread]
    rfl
  | case6 p q ps hname hdot =>
    cases h
    rw [List.cons_append, List.cons_append, read?, if_neg hname, if_neg hdot]

/-- A path begins with a name, and has no pieces but names and dots in front of what is behind it. -/
theorem spec_of_read? {ps rest : List Piece} {path : DottedPath} (h : read? ps = some (path, rest)) :
    ∃ p qs, ps = p :: (qs ++ rest) ∧ p.isName = true ∧ (∀ q ∈ qs, q.isName = true ∨ q.is "." = true) ∧
      path.written = (p :: qs).flatMap fun q => q.blanks ++ q.text := by
  fun_induction read? ps generalizing path with
  | case1 => cases h
  | case2 p hname =>
    cases h
    exact ⟨p, [], rfl, hname, List.forall_mem_nil _, by simp [ofName]⟩
  | case3 => cases h
  | case4 => cases h
  | case5 p dot ps hname hdot ih =>
    obtain ⟨⟨path', rest'⟩, hread, heq⟩ := Option.map_eq_some_iff.1 h
    cases heq
    obtain ⟨q, qs, rfl, hq, hqs, hwritten⟩ := ih hread
    refine ⟨p, dot :: q :: qs, rfl, by simpa using hname,
      List.forall_mem_cons.2 ⟨Or.inr hdot, List.forall_mem_cons.2 ⟨Or.inl hq, hqs⟩⟩, ?_⟩
    have htext : dot.text = ['.'] := beq_iff_eq.1 hdot
    simp [behind, hwritten, htext]
  | case6 p q ps hname hdot =>
    cases h
    exact ⟨p, [], rfl, by simpa using hname, List.forall_mem_nil _, by simp [ofName]⟩

/-- A path as it is written begins behind the blanks in front of it. -/
theorem dropWhile_written {ps : List Piece} {path : DottedPath} (hps : ∀ p ∈ ps, p.WellMade)
    (h : read? ps = some (path, [])) : path.written.dropWhile Text.isBlank = Piece.written ps := by
  obtain ⟨p, qs, rfl, hname, _, hwritten⟩ := spec_of_read? h
  rw [List.append_nil] at hps ⊢
  have hblanks := (hps p List.mem_cons_self).blanks
  cases htext : p.text with
  | nil => simp [Piece.isName, htext] at hname
  | cons c text =>
    have hc : Text.isBlank c = false := by
      rw [← Bool.not_eq_true]
      intro hblank
      simp [Piece.isName, htext, (Text.not_word_of_isBlank hblank).1] at hname
    rw [hwritten, List.flatMap_cons, List.append_assoc, List.dropWhile_append_of_pos hblanks, htext, List.cons_append,
      List.dropWhile_cons_of_neg (by simp [hc]), Piece.written, htext, List.cons_append]

/-- A clause has no pieces but names, dots and `as`, and begins with a name. -/
theorem spec_of_readClause? {cs : List Piece} {path : DottedPath} (h : readClause? cs = some path) :
    (∃ p more, cs = p :: more ∧ p.isName = true) ∧
      ∀ p ∈ cs, p.isName = true ∨ p.is "." = true ∨ p.is "as" = true := by
  have hall : ∀ {rest}, read? cs = some (path, rest) → (∀ p ∈ rest, p.isName = true ∨ p.is "as" = true) →
      (∃ p more, cs = p :: more ∧ p.isName = true) ∧
        ∀ p ∈ cs, p.isName = true ∨ p.is "." = true ∨ p.is "as" = true := by
    intro rest hread hrest
    obtain ⟨p, qs, rfl, hname, hqs, _⟩ := spec_of_read? hread
    refine ⟨⟨p, qs ++ rest, rfl, hname⟩, List.forall_mem_cons.2 ⟨Or.inl hname, fun q hq => ?_⟩⟩
    rcases List.mem_append.1 hq with hq | hq
    · exact (hqs q hq).imp id Or.inl
    · exact (hrest q hq).imp id Or.inr
  unfold readClause? at h
  split at h
  next hread =>
    cases h
    exact hall hread (List.forall_mem_nil _)
  next as name hread =>
    split at h
    next hrenamed =>
      cases h
      exact hall hread (List.forall_mem_cons.2 ⟨Or.inr hrenamed.1, List.forall_mem_singleton.2 (Or.inl hrenamed.2)⟩)
    · cases h
  · cases h

/-- A sign of a list is no part of a clause. -/
theorem not_isListSign_of_readClause? {cs : List Piece} {path : DottedPath} (h : readClause? cs = some path) {p : Piece}
    (hp : p ∈ cs) : ¬ p.IsListSign := by
  intro hsign
  obtain ⟨hname, hdot, has⟩ := hsign.spec
  rcases (spec_of_readClause? h).2 p hp with h | h | h
  · rw [hname] at h
    cases h
  · rw [hdot] at h
    cases h
  · rw [has] at h
    cases h

/-- A clause goes on behind a piece only if that is a dot or `as`. -/
theorem readClause?_append {cs : List Piece} {path : DottedPath} (h : readClause? cs = some path) {q : Piece}
    (hdot : q.is "." = false) (has : q.is "as" = false) (rest : List Piece) : readClause? (cs ++ q :: rest) = none := by
  unfold readClause? at h
  split at h
  next hread =>
    unfold readClause?
    rw [read?_append hread hdot]
    cases rest with
    | nil => rfl
    | cons name rest =>
      cases rest with
      | nil => simp [has]
      | cons => rfl
  next hread =>
    unfold readClause?
    rw [read?_append_of_ne hread (by simp)]
    rfl
  · cases h

/-- Clauses are read one by one. -/
theorem of_readClauses? {ps first : List Piece} {others : List (List Piece)} {found : List String}
    (hps : Piece.betweenCommas ps = first :: others) (h : readClauses? ps = some found) :
    ∃ path more, readClause? first = some path ∧ found = String.ofList path.plain :: more ∧
      (others.mapM fun clause => (readClause? clause).map fun path => String.ofList path.plain) = some more := by
  rw [readClauses?, hps] at h
  obtain ⟨name, more, hname, hmore, rfl⟩ := exists_of_mapM_cons h
  obtain ⟨path, hpath, rfl⟩ := Option.map_eq_some_iff.1 hname
  exact ⟨path, more, hpath, rfl, hmore⟩

/-- No clauses can be read where a sign of a list is in front. -/
theorem readClauses?_sign {p : Piece} (hp : p.IsListSign) (ps : List Piece) : readClauses? (p :: ps) = none := by
  have hnone : ∀ more, readClause? (p :: more) = none := by
    intro more
    refine Option.eq_none_iff_forall_ne_some.2 fun path h => ?_
    exact not_isListSign_of_readClause? h List.mem_cons_self hp
  unfold readClauses? Piece.betweenCommas
  split
  · rfl
  · split <;> simp [hnone]

end DottedPath

/-! ## Modules -/

/-- The dots in front of what is no dot. -/
theorem span_dots {dots : List Piece} (hdots : ∀ p ∈ dots, p.is "." = true) {q : Piece} (hq : q.is "." = false)
    (rest : List Piece) : (dots ++ q :: rest).span (Piece.is ".") = (dots, q :: rest) := by
  rw [List.span_eq_takeWhile_dropWhile, List.takeWhile_append_of_pos hdots, List.dropWhile_append_of_pos hdots,
    List.takeWhile_cons_of_neg (by simp [hq]), List.dropWhile_cons_of_neg (by simp [hq]), List.append_nil]

/-- In front of `import` dots are the module. -/
theorem readModule?_dots {dots : List Piece} (hne : dots ≠ []) (hdots : ∀ p ∈ dots, p.is "." = true) {word : Piece}
    (hword : word.is "import" = true) (rest : List Piece) :
    readModule? (dots ++ word :: rest) = some (dots.length, [], word :: rest) := by
  have hstop : word.is "." = false := by
    rw [Piece.is, beq_iff_eq.1 hword]
    decide
  cases dots with
  | nil => exact absurd rfl hne
  | cons dot dots =>
    rw [readModule?, span_dots hdots hstop]
    simp [hword]

/-- In front of `import` dots with a path behind them are the module. -/
theorem readModule?_relative {dots ps : List Piece} (hne : dots ≠ []) (hdots : ∀ p ∈ dots, p.is "." = true)
    {path : DottedPath} (hpath : DottedPath.read? ps = some (path, [])) {word : Piece} (hword : word.is "." = false)
    (rest : List Piece) :
    readModule? (dots ++ (ps ++ word :: rest)) = some (dots.length, path.written, word :: rest) := by
  have hread := DottedPath.read?_append hpath hword rest
  obtain ⟨p, qs, rfl, hname, _⟩ := DottedPath.spec_of_read? hpath
  have himport : p.is "import" = false := by
    rw [← Bool.not_eq_true]
    intro h
    rw [Piece.isName_eq_false h (by decide) (by decide)] at hname
    cases hname
  cases dots with
  | nil => exact absurd rfl hne
  | cons dot dots =>
    rw [List.append_nil, List.cons_append] at hread
    have hspan := span_dots hdots (Piece.not_sign_of_isName hname).1 (qs ++ word :: rest)
    rw [List.append_nil, show p :: qs ++ word :: rest = p :: (qs ++ word :: rest) from rfl, readModule?, hspan]
    simp [himport, hread]

/-! ## Lists of names -/

/-- Words and signs that list names: clauses with the names that they import, and signs around them. -/
inductive Lists : List Piece → List String → Prop where
  | nil : Lists [] []
  | sign {p : Piece} {ps : List Piece} {names : List String} (hp : p.IsListSign) (h : Lists ps names) :
      Lists (p :: ps) names
  | clause {cs ps : List Piece} {path : DottedPath} {names : List String} (hc : DottedPath.readClause? cs = some path)
      (h : Lists ps names) : Lists (cs ++ ps) (String.ofList path.plain :: names)

namespace Lists

variable {ps qs : List Piece} {names names' : List String} {p : Piece}

/-- Two lists, one after the other, list the names of both. -/
theorem append (h : Lists ps names) (h' : Lists qs names') : Lists (ps ++ qs) (names ++ names') := by
  induction h with
  | nil => exact h'
  | sign hp _ ih => exact .sign hp ih
  | @clause cs ps path names hc _ ih =>
    rw [List.append_assoc]
    exact .clause hc ih

/-- Nothing lists no names. -/
theorem eq_nil (h : Lists [] names) : names = [] := by
  generalize hps : ([] : List Piece) = ps at h
  cases h with
  | nil => rfl
  | sign => cases hps
  | clause hc =>
    obtain ⟨rfl, _⟩ := List.append_eq_nil_iff.1 hps.symm
    cases hc

/-- A list goes on with a name or with a sign. -/
theorem head (h : Lists (p :: ps) names) : p.isName = true ∨ p.IsListSign := by
  generalize hps : p :: ps = qs at h
  cases h with
  | nil => cases hps
  | sign hp =>
    cases hps
    exact Or.inr hp
  | clause hc =>
    obtain ⟨q, more, rfl, hq⟩ := (DottedPath.spec_of_readClause? hc).1
    cases hps
    exact Or.inl hq

/-- A sign at the front of a list may be left out. -/
theorem tail (h : Lists (p :: ps) names) (hp : p.IsListSign) : Lists ps names := by
  generalize hps : p :: ps = qs at h
  cases h with
  | nil => cases hps
  | sign _ h =>
    cases hps
    exact h
  | clause hc =>
    obtain ⟨q, more, rfl, hq⟩ := (DottedPath.spec_of_readClause? hc).1
    cases hps
    exact absurd hp (Piece.not_sign_of_isName hq).2.2

/-- A sign at the end of a list may be left out. -/
theorem init (h : Lists (ps ++ [p]) names) (hp : p.IsListSign) : Lists ps names := by
  generalize hps : ps ++ [p] = qs at h
  induction h generalizing ps with
  | nil => cases List.append_ne_nil_of_right_ne_nil _ (List.cons_ne_nil p []) hps
  | @sign q qs names hq h ih =>
    cases ps with
    | nil =>
      obtain rfl : [] = qs := (List.cons.inj hps).2
      exact h
    | cons r ps =>
      obtain ⟨rfl, htail⟩ := List.cons.inj hps
      exact .sign hq (ih htail)
  | @clause cs qs path names hc h ih =>
    rcases List.eq_nil_or_concat qs with rfl | ⟨init, last, rfl⟩
    · rw [List.append_nil] at hps
      have hmem : p ∈ cs := hps ▸ List.mem_append_right ps List.mem_cons_self
      exact absurd hp (DottedPath.not_isListSign_of_readClause? hc hmem)
    · rw [List.concat_eq_append, ← List.append_assoc] at hps
      obtain ⟨rfl, hlast⟩ := List.append_inj' hps rfl
      exact .clause hc (ih (by rw [List.concat_eq_append, hlast]))

/-- If the clauses between commas can be read they are those of the list, and so they are if they can be read behind a
comma at its front. -/
theorem readClauses?_spec (h : Lists ps names) :
    (∀ found, DottedPath.readClauses? ps = some found → found = names) ∧
      ∀ p qs, ps = p :: qs → p.is "," = true → ∀ found, DottedPath.readClauses? qs = some found → found = names := by
  induction h with
  | nil =>
    refine ⟨fun found hread => ?_, nofun⟩
    obtain ⟨_, _, hfirst, _⟩ := DottedPath.of_readClauses? rfl hread
    cases hfirst
  | @sign p ps names hp h ih =>
    refine ⟨fun found hread => ?_, ?_⟩
    · rw [DottedPath.readClauses?_sign hp] at hread
      cases hread
    · rintro _ _ heq - found hread
      cases heq
      exact ih.1 found hread
  | @clause cs ps path names hc h ih =>
    obtain ⟨q, more, hq, hname⟩ := (DottedPath.spec_of_readClause? hc).1
    refine ⟨fun found hread => ?_, ?_⟩
    · have hcs : ∀ p ∈ cs, p.is "," = false := fun p hp => Bool.not_eq_true _ ▸ fun hcomma =>
        DottedPath.not_isListSign_of_readClause? hc hp ⟨',', by simp, beq_iff_eq.1 hcomma⟩
      obtain ⟨first, others, hps, happend⟩ := Piece.exists_betweenCommas_append hcs ps
      obtain ⟨path', more, hfirst, rfl, hmore⟩ := DottedPath.of_readClauses? happend hread
      cases first with
      | nil =>
        rw [List.append_nil, hc] at hfirst
        cases hfirst
        rcases Piece.of_betweenCommas_nil hps with ⟨rfl, rfl⟩ | ⟨p, qs, rfl, hp, rfl⟩
        · cases hmore
          rw [h.eq_nil]
          rfl
        · rw [ih.2 p qs rfl hp more hmore]
      | cons r first =>
        obtain ⟨qs, rfl⟩ := Piece.of_betweenCommas_cons hps
        have hr : r.is "." = false ∧ r.is "as" = false :=
          h.head.elim (fun hr => (Piece.not_sign_of_isName hr).imp id And.left) fun hr => hr.spec.2
        rw [DottedPath.readClause?_append hc hr.1 hr.2] at hfirst
        cases hfirst
    · rintro p _ heq hp
      obtain ⟨rfl, _⟩ := List.cons.inj (heq.symm.trans (congrArg (· ++ ps) hq))
      rw [DottedPath.is_eq_false_of_isName hname (c := ',') (by decide)] at hp
      cases hp

/-- A list without its last piece, if that is a sign. -/
theorem dropLast {c : Char} (h : Lists ps names) (hc : c ∈ [',', '(', ')', '*'])
    (hlast : ps.getLast?.any (Piece.is (String.ofList [c])) = true) : Lists ps.dropLast names := by
  rcases List.eq_nil_or_concat ps with rfl | ⟨init, last, rfl⟩
  · cases hlast
  · rw [List.concat_eq_append] at h hlast ⊢
    rw [List.getLast?_concat, Option.any_some] at hlast
    rw [List.dropLast_concat]
    exact h.init ⟨c, hc, by simpa [Piece.is] using hlast⟩

/-- What stands in brackets lists the same names. -/
theorem inBrackets? {inner : List Piece} (h : Lists ps names) (hinner : Piece.inBrackets? ps = some inner) :
    Lists inner names := by
  cases ps with
  | nil => cases hinner
  | cons p ps =>
    by_cases hbrackets : p.is "(" = true ∧ ps.getLast?.any (Piece.is ")") = true
    · rw [Piece.inBrackets?, if_pos hbrackets] at hinner
      have hopened := h.tail ⟨'(', by simp, beq_iff_eq.1 hbrackets.1⟩
      have hclosed := hopened.dropLast (c := ')') (by simp) hbrackets.2
      obtain rfl := Option.some.inj hinner
      split
      next hcomma => exact hclosed.dropLast (c := ',') (by simp) hcomma
      · exact hclosed
    · rw [Piece.inBrackets?, if_neg hbrackets] at hinner
      cases hinner

/-- The names that can be read behind `import` are those of the list. -/
theorem readNames?_eq {found : List String} (h : Lists ps names) (hread : readNames? ps = some found) : found = names := by
  unfold readNames? at hread
  split at hread
  next hinner => exact (h.inBrackets? hinner).readClauses?_spec.1 found hread
  next p _ _ =>
    split at hread
    next hstar =>
      cases hread
      exact (h.tail ⟨'*', by simp, beq_iff_eq.1 hstar⟩).eq_nil.symm
    · exact h.readClauses?_spec.1 found hread
  · exact h.readClauses?_spec.1 found hread

end Lists

end PlainSource

/-! ## Trees of statements -/

namespace Tree

open PlainSource (Piece DottedPath Lists)

/-- A token, in which nothing is imported. -/
def IsToken (t : Tree) : Prop :=
  (∃ n, t.label = .token n) ∧ t.children = []

/-- A dotted name over the names and dots of a path. -/
structure IsPath (t : Tree) (ps : List Piece) : Prop where
  is_dottedName : t.is .dottedName = true
  text_eq : t.text = Piece.written ps
  reads : ∃ path, DottedPath.read? ps = some (path, [])

/-- The dots in front of a relative path. -/
structure IsDots (t : Tree) (ps : List Piece) : Prop where
  is_leadingDots : t.is .leadingDots = true
  text_eq : t.text = Piece.written ps
  ne_nil : ps ≠ []
  dots : ∀ p ∈ ps, p.is "." = true

/-- A path that is imported, or one that is renamed. -/
inductive IsClause : Tree → List Piece → Prop where
  | path {t : Tree} {ps : List Piece} (h : t.IsPath ps) : IsClause t ps
  | renamed {t path : Tree} {more : List Tree} {ps : List Piece} {as name : Piece} (h : t.is .renamedName = true)
      (hc : t.children = path :: more) (hpath : path.IsPath ps) (has : as.is "as" = true) (hname : name.isName = true) :
      IsClause t (ps ++ [as, name])

/-- Trees that list names: clauses, and tokens for the signs around them, at any depth. -/
inductive AreNames : List Tree → List Piece → Prop where
  | nil : AreNames [] []
  | sign {t : Tree} {ts : List Tree} {p : Piece} {ps : List Piece} (ht : t.IsToken) (hp : p.IsListSign)
      (h : AreNames ts ps) : AreNames (t :: ts) (p :: ps)
  | clause {t : Tree} {ts : List Tree} {cs ps : List Piece} (hc : t.IsClause cs) (h : AreNames ts ps) :
      AreNames (t :: ts) (cs ++ ps)
  | inner {t : Tree} {ts : List Tree} {ps qs : List Piece} (hd : t.is .dottedName = false)
      (hr : t.is .renamedName = false) (hc : AreNames t.children ps) (h : AreNames ts qs) : AreNames (t :: ts) (ps ++ qs)

/-- The module behind `from`: a path, with or without dots in front of it, or dots alone. -/
inductive IsModule : Tree → List Piece → Prop where
  | path {t : Tree} {ps : List Piece} (h : t.IsPath ps) : IsModule t ps
  | dots {t ds : Tree} {ps : List Piece} (h : t.is .relativeName = true) (hc : t.children = [ds]) (hd : ds.IsDots ps) :
      IsModule t ps
  | relative {t ds path : Tree} {ps qs : List Piece} (h : t.is .relativeName = true) (hc : t.children = [ds, path])
      (hd : ds.IsDots ps) (hpath : path.IsPath qs) : IsModule t (ps ++ qs)

/-- An import statement over the words and signs of its line. -/
inductive IsStatement : Tree → List Piece → Prop where
  | plain {t k : Tree} {ts : List Tree} {w : Piece} {ps : List Piece} (h : t.is .importStatement = true)
      (hc : t.children = k :: ts) (hk : k.IsToken) (hw : w.is "import" = true) (hts : AreNames ts ps) :
      IsStatement t (w :: ps)
  | fromModule {t k m i : Tree} {ts : List Tree} {w v : Piece} {ps qs : List Piece} (h : t.is .fromImport = true)
      (hc : t.children = k :: m :: i :: ts) (hk : k.IsToken) (hw : w.is "from" = true) (hm : m.IsModule ps)
      (hi : i.IsToken) (hv : v.is "import" = true) (hts : AreNames ts qs) : IsStatement t (w :: (ps ++ v :: qs))

/-- Trees that spell the numbered lines of a plain source: a statement for each line that is not empty, at any depth. -/
inductive Spells : List Tree → List (List Char × Nat) → Prop where
  | nil : Spells [] []
  | empty {ts : List Tree} {l : List Char} {n : Nat} {ls : List (List Char × Nat)} (hl : Piece.ofLine l = [])
      (h : Spells ts ls) : Spells ts ((l, n) :: ls)
  | statement {t : Tree} {ts : List Tree} {l : List Char} {n : Nat} {ls : List (List Char × Nat)}
      (ht : t.IsStatement (Piece.ofLine l)) (hn : t.line = n) (h : Spells ts ls) : Spells (t :: ts) ((l, n) :: ls)
  | inner {t : Tree} {ts : List Tree} {ks ls : List (List Char × Nat)} (hi : t.is .importStatement = false)
      (hf : t.is .fromImport = false) (hc : Spells t.children ks) (h : Spells ts ls) : Spells (t :: ts) (ks ++ ls)

variable {t : Tree} {ts : List Tree} {ps qs : List Piece}

/-- A tree is of one kind only. -/
theorem is_eq_false_of_ne {p q : Phrase} (h : t.is p = true) (hne : p.number ≠ q.number) : t.is q = false := by
  have hlabel : t.label = .phrase p.number := by simpa [is] using h
  rw [is, hlabel, beq_eq_false_iff_ne]
  intro heq
  injection heq with hnumber
  exact hne hnumber

/-- The kind of a token is no phrase. -/
theorem IsToken.is_eq_false (h : t.IsToken) (p : Phrase) : t.is p = false := by
  obtain ⟨⟨n, hn⟩, _⟩ := h
  simp [is, hn]

/-- A tree that is no name imports what is below it. -/
theorem importedNames_of_none (h : t.importedName? = none) : importedNames t = importedNamesOf t.children := by
  cases t
  rw [importedNames, h]
  rfl

/-- A token names nothing that is imported. -/
theorem IsToken.importedNames_eq (h : t.IsToken) : importedNames t = [] := by
  rw [importedNames_of_none (by simp [importedName?, h.is_eq_false]), h.2]
  rfl

/-- A path in a tree is the one that is read. -/
theorem IsPath.spec (h : t.IsPath ps) (hps : ∀ p ∈ ps, p.WellMade) :
    ∃ path, DottedPath.read? ps = some (path, []) ∧ t.plainName = String.ofList path.plain ∧
      t.text = path.written.dropWhile Text.isBlank := by
  obtain ⟨path, hpath⟩ := h.reads
  have htext : t.text = path.written.dropWhile Text.isBlank :=
    h.text_eq.trans (DottedPath.dropWhile_written hps hpath).symm
  refine ⟨path, hpath, ?_, htext⟩
  rw [← DottedPath.unspaced_written hps hpath, ← Text.unspaced_dropWhile, ← htext]
  rfl

/-- The name of a clause is that of the path that is read. -/
theorem IsClause.spec (h : t.IsClause ps) (hps : ∀ p ∈ ps, p.WellMade) :
    ∃ path, DottedPath.readClause? ps = some path ∧ t.importedName? = some (String.ofList path.plain) := by
  cases h with
  | path h =>
    obtain ⟨path, hread, hname, _⟩ := h.spec hps
    exact ⟨path, by simp [DottedPath.readClause?, hread], by simp [importedName?, h.is_dottedName, hname]⟩
  | @renamed path more qs as name h hc hpath has hname =>
    obtain ⟨found, hread, hplain, _⟩ := hpath.spec fun p hp => hps p (List.mem_append_left _ hp)
    have hdot : as.is "." = false := by
      rw [Piece.is, beq_iff_eq.1 has]
      decide
    refine ⟨found, ?_, ?_⟩
    · simp [DottedPath.readClause?, DottedPath.read?_append hread hdot [name], has, hname]
    · have hother : t.is .dottedName = false := is_eq_false_of_ne h (by decide)
      simp [importedName?, hother, h, hc, hpath.is_dottedName, hplain]

/-- Trees of names list the names that are imported. -/
theorem AreNames.lists (h : AreNames ts ps) (hps : ∀ p ∈ ps, p.WellMade) : Lists ps (importedNamesOf ts) := by
  induction h with
  | nil => exact .nil
  | sign ht hp h ih =>
    rw [importedNamesOf, ht.importedNames_eq, List.nil_append]
    exact .sign hp (ih fun p hp => hps p (List.mem_cons_of_mem _ hp))
  | @clause t ts cs ps hc h ih =>
    obtain ⟨path, hread, hname⟩ := hc.spec fun p hp => hps p (List.mem_append_left _ hp)
    have hnames : importedNames t = [String.ofList path.plain] := by
      cases t
      rw [importedNames, hname]
    rw [importedNamesOf, hnames]
    exact .clause hread (ih fun p hp => hps p (List.mem_append_right _ hp))
  | @inner t ts ps qs hd hr hc h ihc ih =>
    rw [importedNamesOf, importedNames_of_none (by simp [importedName?, hd, hr])]
    exact (ihc fun p hp => hps p (List.mem_append_left _ hp)).append (ih fun p hp => hps p (List.mem_append_right _ hp))

/-- The module behind `from` is the one that is read, with what stands behind it. -/
theorem IsModule.readModule? (h : t.IsModule ps) (hps : ∀ p ∈ ps, p.WellMade) {word : Piece}
    (hword : word.is "import" = true) (rest : List Piece) :
    ∃ path, PlainSource.readModule? (ps ++ word :: rest) = some (t.moduleOf.1, path, word :: rest) ∧
      String.ofList (path.dropWhile Text.isBlank) = t.moduleOf.2 := by
  have hstop : word.is "." = false := by
    rw [Piece.is, beq_iff_eq.1 hword]
    decide
  cases h with
  | path h =>
    obtain ⟨path, hread, _, htext⟩ := h.spec hps
    have hmodule : t.moduleOf = (0, String.ofList t.text) := by
      rw [moduleOf, is_eq_false_of_ne h.is_dottedName (by decide), if_neg (by decide)]
    refine ⟨path.written, ?_, ?_⟩
    · rw [PlainSource.readModule?_path hread hstop, hmodule]
    · rw [hmodule, htext]
  | dots h hc hd =>
    have hmodule : t.moduleOf = (ps.length, "") := by
      simp [moduleOf, h, hc, hd.is_leadingDots, is_eq_false_of_ne hd.is_leadingDots (q := .dottedName) (by decide),
        hd.text_eq, Piece.count_written hps hd.dots]
    refine ⟨[], ?_, ?_⟩
    · rw [PlainSource.readModule?_dots hd.ne_nil hd.dots hword, hmodule]
    · rw [hmodule]
      rfl
  | @relative ds named dots qs h hc hd hpath =>
    obtain ⟨path, hread, _, htext⟩ := hpath.spec fun p hp => hps p (List.mem_append_right _ hp)
    have hmodule : t.moduleOf = (dots.length, String.ofList named.text) := by
      simp [moduleOf, h, hc, hd.is_leadingDots, is_eq_false_of_ne hd.is_leadingDots (q := .dottedName) (by decide),
        hpath.is_dottedName, hd.text_eq, Piece.count_written (fun p hp => hps p (List.mem_append_left _ hp)) hd.dots]
    refine ⟨path.written, ?_, ?_⟩
    · rw [List.append_assoc, PlainSource.readModule?_relative hd.ne_nil hd.dots hread hstop, hmodule]
    · rw [hmodule, htext]

/-- An `import` statement imports the names that it lists. -/
theorem imports_of_importStatement (h : t.is .importStatement = true) :
    t.imports = (importedNamesOf t.children).map fun name => ⟨name, 0, [], t.line⟩ := by
  cases t
  rw [imports, if_pos h]
  rfl

/-- A `from` statement imports what it says as a whole. -/
theorem imports_of_fromImport (h : t.is .fromImport = true) : t.imports = t.fromStatement?.toList := by
  have hother := is_eq_false_of_ne h (q := .importStatement) (by decide)
  cases t
  rw [imports, hother, if_neg (by decide), if_pos h]

/-- A tree of no statement imports what is below it. -/
theorem imports_of_inner (hi : t.is .importStatement = false) (hf : t.is .fromImport = false) :
    t.imports = importsOf t.children := by
  cases t
  rw [imports, hi, hf]
  rfl

/-- A module is found by its kind. -/
theorem IsModule.is_eq_true (h : t.IsModule ps) : (t.is .relativeName || t.is .dottedName) = true := by
  cases h with
  | path h => simp [h.is_dottedName]
  | dots h => simp [h]
  | relative h => simp [h]

/-- A `from` statement imports from the module in front of `import` the names behind it. -/
theorem fromStatement?_eq {k m i : Tree} (hc : t.children = k :: m :: i :: ts) (hk : k.IsToken) (hm : m.IsModule ps)
    (hi : i.IsToken) :
    t.fromStatement? = some ⟨m.moduleOf.2, m.moduleOf.1, importedNamesOf ts, t.line⟩ := by
  rw [fromStatement?, hc, List.span_eq_takeWhile_dropWhile, List.dropWhile_cons_of_pos (by simp [hk.is_eq_false]),
    List.dropWhile_cons_of_neg (by simp [hm.is_eq_true])]
  simp [importedNamesOf, hi.importedNames_eq]

/-- What is read of the line of a statement is what its tree imports. -/
theorem IsStatement.imports_eq {l : List Char} {n : Nat} (h : t.IsStatement (Piece.ofLine l)) (hn : t.line = n)
    {found : List ImportStatement} (hread : PlainSource.readLine? n l = some found) : t.imports = found := by
  have hmade : ∀ p ∈ Piece.ofLine l, p.WellMade := fun _ => Piece.wellMade_of_mem_ofLine
  unfold PlainSource.readLine? at hread
  generalize Piece.ofLine l = ps at h hread hmade
  cases h with
  | @plain k ts w ps h hc hk hw hts =>
    have hlists := hts.lists fun p hp => hmade p (List.mem_cons_of_mem w hp)
    simp only [hw, if_true] at hread
    split at hread
    · cases hread
    · obtain ⟨paths, hpaths, rfl⟩ := Option.map_eq_some_iff.1 hread
      rw [imports_of_importStatement h, hc, importedNamesOf, hk.importedNames_eq, List.nil_append,
        hlists.readClauses?_spec.1 paths hpaths, hn]
  | @fromModule k m i ts w v ps qs h hc hk hw hm hi hv hts =>
    have hlists := hts.lists fun p hp => hmade p (List.mem_cons_of_mem w
      (List.mem_append_right ps (List.mem_cons_of_mem v hp)))
    obtain ⟨path, hmodule, hpath⟩ := hm.readModule? (fun p hp => hmade p (List.mem_cons_of_mem w
      (List.mem_append_left _ hp))) hv qs
    have himport : w.is "import" = false := by
      rw [Piece.is, beq_iff_eq.1 hw]
      decide
    simp only [himport, hw, if_true, Bool.false_eq_true, if_false, PlainSource.readFrom?, hmodule, hv] at hread
    split at hread
    · cases hread
    · obtain ⟨_, hone, rfl⟩ := Option.map_eq_some_iff.1 hread
      obtain ⟨names, hnames, rfl⟩ := Option.map_eq_some_iff.1 hone
      rw [imports_of_fromImport h, fromStatement?_eq hc hk hm hi, hlists.readNames?_eq hnames, hpath, hn]
      rfl

/-- The imports in trees that spell lines are those that are read line by line. -/
theorem Spells.importsOf_eq {ls : List (List Char × Nat)} (h : Spells ts ls) {found : List (List ImportStatement)}
    (hread : (ls.mapM fun l => PlainSource.readLine? l.2 l.1) = some found) : importsOf ts = found.flatten := by
  induction h generalizing found with
  | nil =>
    cases hread
    rfl
  | @empty ts l n ls hl h ih =>
    obtain ⟨first, more, hfirst, hmore, rfl⟩ := exists_of_mapM_cons hread
    rw [PlainSource.readLine?, hl] at hfirst
    cases hfirst
    rw [List.flatten_cons, List.nil_append, ih hmore]
  | @statement t ts l n ls ht hn h ih =>
    obtain ⟨first, more, hfirst, hmore, rfl⟩ := exists_of_mapM_cons hread
    rw [importsOf, ht.imports_eq hn hfirst, ih hmore]
    rfl
  | @inner t ts ks ls hi hf hc h ihc ih =>
    rw [List.mapM_append] at hread
    obtain ⟨first, hfirst, hread⟩ := Option.bind_eq_some_iff.1 hread
    obtain ⟨more, hmore, hread⟩ := Option.bind_eq_some_iff.1 hread
    cases hread
    rw [importsOf, imports_of_inner hi hf, ihc hfirst, ih hmore, List.flatten_append]

end Tree

/-! ## Sources -/

namespace PlainSource

/-- The lines of a text with their numbers. -/
def numberedLines (text : List Char) : List (List Char × Nat) :=
  (Text.split '\n' text).zipIdx 1

/-- A source is read line by line; the first line may have begun before. -/
theorem readLines?_eq (line : Nat) (before text : List Char) (found : List ImportStatement) :
    readLines? line before found text =
      (((Text.split '\n' text).modifyHead (before.reverse ++ ·)).zipIdx line |>.mapM fun l => readLine? l.2 l.1).map
        fun read => found.reverse ++ read.flatten := by
  induction text generalizing line before found with
  | nil =>
    cases h : readLine? line before.reverse <;> simp [readLines?, Text.split, h]
  | cons c text ih =>
    rw [readLines?, Text.split]
    split
    next hc =>
      cases h : readLine? line before.reverse with
      | none => simp [h]
      | some statements =>
        have hid : (Text.split '\n' text).modifyHead ([].reverse ++ ·) = Text.split '\n' text :=
          congrFun List.modifyHead_id _
        simp only [h, ih, hid, List.modifyHead_cons, List.append_nil, List.zipIdx_cons, List.mapM_cons]
        cases ((Text.split '\n' text).zipIdx (line + 1)).mapM fun l => readLine? l.2 l.1 <;> simp
    next hc =>
      rw [ih]
      cases h : Text.split '\n' text with
      | nil => exact absurd h (Text.split_ne_nil '\n' text)
      | cons first more => simp

/-- A plain source without carriage returns and null characters is read line by line. -/
theorem mapM_of_read? {text : List Char} {found : List ImportStatement} (h : read? text = some found) :
    ∃ read, ((numberedLines text).mapM fun l => readLine? l.2 l.1) = some read ∧ found = read.flatten := by
  unfold read? at h
  split at h
  · cases h
  · rw [readLines?_eq] at h
    obtain ⟨read, hread, rfl⟩ := Option.map_eq_some_iff.1 h
    have hid : (Text.split '\n' text).modifyHead ([].reverse ++ ·) = Text.split '\n' text := congrFun List.modifyHead_id _
    rw [hid] at hread
    exact ⟨read, hread, rfl⟩

end PlainSource

/-- A tree that spells a plain source has the imports that are read line by line. -/
theorem Tree.Spells.imports_eq {t : Tree} {text : List Char} (h : Spells [t] (PlainSource.numberedLines text))
    {found : List ImportStatement} (hread : PlainSource.read? text = some found) : t.imports = found := by
  obtain ⟨read, hlines, rfl⟩ := PlainSource.mapM_of_read? hread
  rw [← h.importsOf_eq hlines, importsOf, importsOf, List.append_nil]

/-- A phrase over a text in a line, as far as imports are concerned. -/
def Tree.phrase (p : Phrase) (text : List Char) (line : Nat) (children : List Tree) : Tree :=
  let start : Place := ⟨text, text.length, 0, line - 1⟩
  node { label := .phrase p.number, before := start, start, stop := ⟨[], 0, 0, 0⟩ } children

/-- The tree of a relative import behind an empty line. -/
example :
    let token (t : Token) : Tree :=
      .node { label := .token t.number, before := default, start := default, stop := default } []
    let dots : Tree := .phrase .leadingDots ['.'] 2 [token (.literal ".")]
    let names : Tree := .phrase .importedNames ['a'] 2 [.phrase .dottedName ['a'] 2 [token .name]]
    let statement : Tree := .phrase .fromImport [] 2
      [token (.literal "from"), .phrase .relativeName ['.'] 2 [dots], token (.literal "import"), names]
    let source : Tree := .phrase .source [] 2 [statement, token .newline]
    Tree.Spells [source] (PlainSource.numberedLines "\nfrom . import a".toList) := by
  intro token dots names statement source
  have htoken : ∀ t, (token t).IsToken := fun t => ⟨⟨_, rfl⟩, rfl⟩
  have hpath : Tree.IsPath (.phrase .dottedName ['a'] 2 [token .name]) [⟨[' '], ['a']⟩] := ⟨rfl, rfl, _, rfl⟩
  have hnames : Tree.AreNames [names] (([⟨[' '], ['a']⟩] ++ []) ++ []) := .inner rfl rfl (.clause (.path hpath) .nil) .nil
  have hmodule : Tree.IsModule (.phrase .relativeName ['.'] 2 [dots]) [⟨[' '], ['.']⟩] :=
    .dots rfl rfl ⟨rfl, rfl, nofun, by decide⟩
  have hstatement : statement.IsStatement (PlainSource.Piece.ofLine "from . import a".toList) :=
    .fromModule rfl rfl (htoken _) rfl hmodule (htoken _) rfl hnames
  have hend : Tree.Spells [token .newline] ([] ++ []) := .inner rfl rfl .nil .nil
  have hlines : Tree.Spells [statement, token .newline] [([], 1), ("from . import a".toList, 2)] :=
    .empty rfl (.statement hstatement rfl hend)
  have hsource : Tree.Spells [source] ([([], 1), ("from . import a".toList, 2)] ++ []) := .inner rfl rfl hlines .nil
  exact hsource

/-- The reader of plain sources is a shortcut: where the grammar gives each of them a tree without a fault that spells it,
the imports of a source are those that the grammar has. -/
theorem readImports_eq_parseImports {source : String}
    (h : (PlainSource.read? source.toList).isSome = true → ∃ t, parse tables.get source.toList = some t ∧
      t.faultLine? = none ∧ Tree.Spells [t] (PlainSource.numberedLines source.toList)) :
    readImports source = parseImports source.toList := by
  unfold readImports
  cases hread : PlainSource.read? source.toList with
  | none => rfl
  | some found =>
    obtain ⟨t, hparse, hfault, hspells⟩ := h (by rw [hread]; rfl)
    simp only [parseImports, hparse, hfault, hspells.imports_eq hread]

end ImportClosure.Python
