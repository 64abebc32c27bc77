import ImportClosure.Proofs.Matched
import ImportClosure.Proofs.SameBelow

/-!
# Reading patterns below a directory

The path of a directory that holds no wildcards stands for itself in front of a pattern: behind two such directories a pattern
is read to the same steps, or refused (`FilePattern.read_below`).
-/

namespace ImportClosure

open ImportClosure.Path

namespace FileGlob

variable {c : Char} {w cs : List Char} {size fuel : Nat} {front : Option Char} {parts : List Part}

/-- Whether a character stands for itself in a pattern. -/
def isPlain (c : Char) : Bool :=
  c != '?' && c != '*' && c != '['

theorem readParts_cons (hc : isPlain c = true) (size fuel : Nat) (front : Option Char) (parts : List Part) (cs : List Char) :
    readParts size (fuel + 1) front parts (c :: cs) = readParts size fuel (some c) (.char c :: parts) cs := by
  simp only [isPlain, Bool.and_eq_true, bne_iff_ne] at hc
  conv_lhs => unfold readParts
  split
  all_goals first | rfl | simp_all

/-- Characters that stand for themselves are read one by one. -/
theorem readParts_append (hw : ∀ c ∈ w, isPlain c = true) (size fuel : Nat) (front : Option Char) (parts : List Part)
    (cs : List Char) : readParts size (w.length + fuel) front parts (w ++ cs) =
      readParts size fuel (w.getLast?.or front) ((w.map Part.char).reverse ++ parts) cs := by
  induction w generalizing front parts with
  | nil => simp
  | cons c w ih =>
    rw [List.length_cons, Nat.add_right_comm, List.cons_append, readParts_cons (hw c List.mem_cons_self),
      ih fun d hd => hw d (List.mem_cons_of_mem c hd)]
    congr 1
    · cases w <;> simp [List.getLast?_cons]
    · simp

/-- A text of characters that stand for themselves. -/
theorem read_of_isPlain {name : String} (h : ∀ c ∈ name.toList, isPlain c = true) :
    read name = .ok (name.toList.map .char) := by
  have hread := readParts_append h name.toList.length 0 none [] []
  rw [Nat.add_zero, List.append_nil, List.append_nil] at hread
  rw [read, hread, readParts, List.reverse_reverse]

theorem literal?_map_char (cs : List Char) : literal? (cs.map .char) = some (String.ofList cs) := by
  refine congrArg (Option.map String.ofList) (?_ : _ = some cs)
  induction cs with
  | nil => rfl
  | cons c cs ih =>
    rw [List.map_cons, List.mapM_cons, ih]
    rfl

/-- Whether a pattern can be read from some characters on does not depend on what was read before, but for the last
character. -/
theorem isOk_readParts {size' fuel' : Nat} {parts' : List Part} (hfuel : cs.length ≤ fuel) (hfuel' : cs.length ≤ fuel') :
    (readParts size fuel front parts cs).isOk = (readParts size' fuel' front parts' cs).isOk := by
  induction fuel generalizing fuel' front parts parts' cs with
  | zero =>
    obtain rfl : cs = [] := List.eq_nil_of_length_eq_zero (Nat.le_zero.1 hfuel)
    cases fuel' <;> simp [readParts, Except.isOk, Except.toBool]
  | succ fuel ih =>
    cases cs with
    | nil => cases fuel' <;> simp [readParts, Except.isOk, Except.toBool]
    | cons c cs =>
      obtain ⟨fuel', rfl⟩ : ∃ k, fuel' = k + 1 := ⟨fuel' - 1, by simp at hfuel'; omega⟩
      simp only [List.length_cons, Nat.add_le_add_iff_right] at hfuel hfuel'
      by_cases hplain : isPlain c = true
      · rw [readParts_cons hplain, readParts_cons hplain]
        exact ih hfuel hfuel'
      have hcases : c = '?' ∨ c = '*' ∨ c = '[' := by
        simp only [isPlain, Bool.and_eq_true, bne_iff_ne] at hplain
        tauto
      rcases hcases with rfl | rfl | rfl
      · simp only [readParts]
        exact ih hfuel hfuel'
      · have hrest : (cs.dropWhile (· == '*')).length ≤ cs.length := (List.dropWhile_suffix _).length_le
        simp only [readParts]
        generalize cs.takeWhile (· == '*') = stars, cs.dropWhile (· == '*') = rest at hrest ⊢
        rcases stars with _ | ⟨d, _ | ⟨d', ds⟩⟩
        · exact ih (hrest.trans hfuel) (hrest.trans hfuel')
        · dsimp only
          split
          · rcases rest with _ | ⟨d, rest⟩
            · rfl
            · simp only [List.length_cons] at hrest
              by_cases hslash : d = '/'
              · subst hslash
                exact ih (by omega) (by omega)
              · simp [hslash, Except.isOk, Except.toBool]
          · rfl
        · rfl
      · simp only [readParts]
        cases hclass : readClass cs with
        | none => rfl
        | some read =>
          have hrest : read.2.length ≤ cs.length := (of_readClass (c := 'x') hclass).2.length_le
          exact ih (hrest.trans hfuel) (hrest.trans hfuel')

end FileGlob

namespace FilePattern

open FileGlob

variable {t t' : FileTree} {b b' : Place} {pattern : String}

/-- A place whose path stands for itself in a pattern. -/
def IsPlain (b : Place) : Prop :=
  ∀ name ∈ b, ∀ c ∈ name.toList, isPlain c = true

instance (b : Place) : Decidable (IsPlain b) :=
  decidable_of_iff ((b.all fun name => name.toList.all isPlain) = true) (by simp [IsPlain])

/-- The steps that the names of a place are read as. -/
def literals (b : Place) : List (List Part) :=
  b.map fun name => name.toList.map .char

theorem isPlain_of_mem (hb : IsPlain b) (hslash : ∀ name ∈ b, '/' ∉ name.toList) {c : Char}
    (hc : c ∈ (ofPlace b).text.toList) : isPlain c = true := by
  by_cases hs : c = '/'
  · subst hs
    decide
  · rcases (mem_text_down hs (by decide) hslash).1 hc with hroot | ⟨name, hname, hmem⟩
    · exact absurd (List.mem_singleton.1 hroot) hs
    · exact hb name hname c hmem

/-- The last of the texts between slashes is dropped if it is empty, whatever stands in front. -/
theorem stepTexts_append {front : String} (hs : Text.fields '/' front = b ++ Text.fields '/' pattern) :
    stepTexts front = b ++ stepTexts pattern := by
  unfold stepTexts
  rw [hs, List.reverse_append]
  obtain ⟨last, before, hrev⟩ := List.exists_cons_of_ne_nil (l := (Text.fields '/' pattern).reverse)
    (by simp [Text.fields, Text.split_ne_nil])
  rw [hrev, List.cons_append]
  by_cases hlast : last = ""
  · subst hlast
    simp
  · simp [hlast]

/-- Behind the path of a directory that stands for itself a pattern is read as it is alone. -/
theorem read_join (h : t.HasDirectory b) (hb : IsPlain b) (hp : Path.isAbsolute ⟨pattern⟩ = false) {parts : List Part}
    (hwhole : FileGlob.read ((ofPlace b).join ⟨pattern⟩).text = .ok parts) :
    read ((ofPlace b).join ⟨pattern⟩).text = ((stepTexts pattern).mapM FileGlob.read).map fun steps =>
      ⟨⟨"/"⟩, literals b ++ steps, Text.endsWith ("/" ++ pattern) "/"⟩ := by
  have hend : Text.endsWith ((ofPlace b).join ⟨pattern⟩).text "/" = Text.endsWith ("/" ++ pattern) "/" := by
    rw [h.text_join hp, String.append_assoc, Bool.eq_iff_iff, Text.endsWith, Text.endsWith, List.isSuffixOf_iff_suffix,
      List.isSuffixOf_iff_suffix, String.toList_append]
    rw [show "/".toList = ['/'] from rfl, List.singleton_suffix_iff_getLast?_eq_some,
      List.singleton_suffix_iff_getLast?_eq_some, List.getLast?_append_of_ne_nil _ (by simp)]
  obtain ⟨s, hs⟩ := isAbsolute_iff.1 (isAbsolute_join (p := ⟨pattern⟩) (FileTree.HasDirectory.isAbsolute b))
  have hfields : Text.fields '/' s = b ++ Text.fields '/' pattern := by
    have hjoin := h.fields_join hp
    rw [hs, fields_root] at hjoin
    exact (List.cons.inj hjoin).2
  have hne : (s == "") = false := by
    rw [beq_eq_false_iff_ne]
    rintro rfl
    have hlength := congrArg List.length hfields
    have hpos := List.length_pos_of_ne_nil h.ne_nil
    have hpos' := List.length_pos_of_ne_nil (show Text.fields '/' pattern ≠ [] by simp [Text.fields, Text.split_ne_nil])
    rw [List.length_append, show (Text.fields '/' "").length = 1 from rfl] at hlength
    omega
  have hnames : b.mapM FileGlob.read = .ok (literals b) := by
    have hall : ∀ name ∈ b, FileGlob.read name = .ok (name.toList.map .char) := fun name hname => read_of_isPlain (hb name hname)
    clear hfields h hwhole hend hs
    induction b with
    | nil => rfl
    | cons name b ih =>
      rw [List.mapM_cons, hall name List.mem_cons_self, ih (fun x hx => hb x (List.mem_cons_of_mem name hx))
        fun x hx => hall x (List.mem_cons_of_mem name hx)]
      rfl
  have htail : String.ofList ("/" ++ s).toList.tail = s := by simp
  rw [hs] at hwhole hend ⊢
  unfold read
  rw [hwhole, hend, show Text.startsWith ("/" ++ s) "/" = true from isAbsolute_root s]
  simp only [if_true, htail, stepTexts_append hfields, List.mapM_append, hnames, hne]
  cases (stepTexts pattern).mapM FileGlob.read with
  | error fault => rfl
  | ok steps => rfl

/-- Whether a pattern can be read as a whole does not depend on the directory in front of it. -/
theorem isOk_read_join (h : t.HasDirectory b) (hb : IsPlain b) (hp : Path.isAbsolute ⟨pattern⟩ = false) :
    (FileGlob.read ((ofPlace b).join ⟨pattern⟩).text).isOk =
      (readParts 0 pattern.toList.length (some '/') [] pattern.toList).isOk := by
  have hplain : ∀ c ∈ ((ofPlace b).text ++ "/").toList, isPlain c = true := by
    intro c hc
    rw [String.toList_append] at hc
    rcases List.mem_append.1 hc with hc | hc
    · exact isPlain_of_mem hb (fun name hname => (h.steps name hname).1.1) hc
    · rw [List.mem_singleton.1 hc]
      decide
  have hlength : ((ofPlace b).join ⟨pattern⟩).text.toList = ((ofPlace b).text ++ "/").toList ++ pattern.toList := by
    rw [h.text_join hp, String.toList_append]
  rw [FileGlob.read, hlength, List.length_append, readParts_append hplain]
  have hlast : ((ofPlace b).text ++ "/").toList.getLast?.or none = some '/' := by simp
  rw [hlast]
  exact isOk_readParts (Nat.le_refl _) (Nat.le_refl _)

/-- Behind two directories whose paths stand for themselves a pattern is read to the same steps, or refused. -/
theorem read_below (h : t.HasDirectory b) (h' : t'.HasDirectory b') (hb : IsPlain b) (hb' : IsPlain b')
    (hp : Path.isAbsolute ⟨pattern⟩ = false) :
    (∃ fault fault', read ((ofPlace b).join ⟨pattern⟩).text = .error fault ∧
        read ((ofPlace b').join ⟨pattern⟩).text = .error fault') ∨
      ∃ steps directoriesOnly, (stepTexts pattern).mapM FileGlob.read = .ok steps ∧
        read ((ofPlace b).join ⟨pattern⟩).text = .ok ⟨⟨"/"⟩, literals b ++ steps, directoriesOnly⟩ ∧
        read ((ofPlace b').join ⟨pattern⟩).text = .ok ⟨⟨"/"⟩, literals b' ++ steps, directoriesOnly⟩ := by
  have hsame := (isOk_read_join h hb hp).trans (isOk_read_join h' hb' hp).symm
  have herror : ∀ {text : String} {fault : Fault}, FileGlob.read text = .error fault → read text = .error fault := by
    intro text fault hwhole
    rw [read, hwhole]
    rfl
  cases hwhole : FileGlob.read ((ofPlace b).join ⟨pattern⟩).text with
  | error fault =>
    cases hwhole' : FileGlob.read ((ofPlace b').join ⟨pattern⟩).text with
    | error fault' => exact Or.inl ⟨fault, fault', herror hwhole, herror hwhole'⟩
    | ok parts' =>
      rw [hwhole, hwhole'] at hsame
      cases hsame
  | ok parts =>
    cases hwhole' : FileGlob.read ((ofPlace b').join ⟨pattern⟩).text with
    | error fault' =>
      rw [hwhole, hwhole'] at hsame
      cases hsame
    | ok parts' =>
      rw [read_join h hb hp hwhole, read_join h' hb' hp hwhole']
      cases hsteps : (stepTexts pattern).mapM FileGlob.read with
      | error fault => exact Or.inl ⟨fault, fault, rfl, rfl⟩
      | ok steps => exact Or.inr ⟨steps, _, rfl, rfl, rfl⟩

end FilePattern

end ImportClosure
