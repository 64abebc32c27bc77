import ImportClosure.Proofs.PlainBlanks

/-!
# Blanks in import statements

Blanks make no difference to an import statement, but for one place: the path behind `from` is kept as it is written
(`blanks_in_imports`). So a path with blanks around its dots is another path there than without them, and than behind
`import` (`blanks_kept_behind_from`).
-/

namespace ImportClosure

/-- What a statement imports: path, level and names. -/
def ImportStatement.content (i : ImportStatement) : String × Nat × List String :=
  (i.path, i.level, i.names)

namespace Python

/-! ## Trees -/

namespace Tree

mutual

/-- Two trees of the same shape over the same text, but for the blanks in it. -/
def Alike : Tree → Tree → Prop
  | node info children, node info' children' =>
    info.label = info'.label ∧
      Text.unspaced (info.start.textTo info.stop) = Text.unspaced (info'.start.textTo info'.stop) ∧
      AlikeAll children children'

/-- Trees that are alike one by one. -/
def AlikeAll : List Tree → List Tree → Prop
  | [], [] => True
  | t :: ts, t' :: ts' => Alike t t' ∧ AlikeAll ts ts'
  | _, _ => False

end

variable {t t' : Tree} {ts ts' : List Tree}

/-- Trees that are alike are of the same kind. -/
theorem Alike.is_eq (h : t.Alike t') (p : Phrase) : t.is p = t'.is p := by
  cases t
  cases t'
  exact congrArg (· == Label.phrase p.number) h.1

/-- Trees that are alike have the same text but for blanks. -/
theorem Alike.text_eq (h : t.Alike t') : Text.unspaced t.text = Text.unspaced t'.text := by
  cases t
  cases t'
  exact h.2.1

/-- The children of trees that are alike are alike. -/
theorem Alike.children (h : t.Alike t') : AlikeAll t.children t'.children := by
  cases t
  cases t'
  exact h.2.2

/-- A dotted name is read without its blanks. -/
theorem Alike.plainName_eq (h : t.Alike t') : t.plainName = t'.plainName :=
  congrArg String.ofList h.text_eq

/-- Of trees that are alike the first of a kind are alike too. -/
theorem AlikeAll.map_find? {β : Type} {f : Tree → β} (hf : ∀ t t', Alike t t' → f t = f t') (h : AlikeAll ts ts') (p : Phrase) :
    (ts.find? (is p)).map f = (ts'.find? (is p)).map f := by
  induction ts generalizing ts' with
  | nil =>
    cases ts' with
    | nil => rfl
    | cons => cases h
  | cons t ts ih =>
    cases ts' with
    | nil => cases h
    | cons t' ts' =>
      rw [List.find?_cons, List.find?_cons, h.1.is_eq p]
      split
      · exact congrArg some (hf t t' h.1)
      · exact ih h.2

/-- Trees that are alike are the same imported name. -/
theorem Alike.importedName?_eq (h : t.Alike t') : t.importedName? = t'.importedName? := by
  unfold importedName?
  rw [h.is_eq, h.is_eq, h.plainName_eq, h.children.map_find? fun _ _ => Alike.plainName_eq]

mutual

/-- Trees that are alike import the same names. -/
theorem Alike.importedNames_eq : ∀ {t t' : Tree}, t.Alike t' → importedNames t = importedNames t'
  | node info children, node info' children', h => by
    unfold importedNames
    rw [h.importedName?_eq]
    cases (node info' children').importedName? with
    | some name => rfl
    | none => exact AlikeAll.importedNamesOf_eq h.2.2

/-- Trees that are alike one by one import the same names. -/
theorem AlikeAll.importedNamesOf_eq : ∀ {ts ts' : List Tree}, AlikeAll ts ts' → importedNamesOf ts = importedNamesOf ts'
  | [], [], _ => rfl
  | _ :: _, _ :: _, h => by
    rw [importedNamesOf, importedNamesOf, Alike.importedNames_eq h.1, AlikeAll.importedNamesOf_eq h.2]

end

/-- The blanks show in the path of the module behind `from`, and not in its dots. -/
theorem Alike.moduleOf_eq (h : t.Alike t') :
    t.moduleOf.1 = t'.moduleOf.1 ∧ Text.unspaced t.moduleOf.2.toList = Text.unspaced t'.moduleOf.2.toList := by
  have hcount : ∀ s : List Char, s.count '.' = (Text.unspaced s).count '.' := fun s =>
    (List.count_filter (by decide)).symm
  have hfind : ∀ p, Text.unspaced (((t.children.find? (is p)).map text).getD []) =
      Text.unspaced (((t'.children.find? (is p)).map text).getD []) := by
    intro p
    have hmap := h.children.map_find? (f := fun t => Text.unspaced t.text) (fun _ _ => Alike.text_eq) p
    generalize t.children.find? (is p) = found at hmap ⊢
    generalize t'.children.find? (is p) = found' at hmap ⊢
    cases found <;> cases found'
    · rfl
    · exact nomatch hmap
    · exact nomatch hmap
    · exact Option.some.inj hmap
  unfold moduleOf
  rw [h.is_eq]
  split
  · dsimp only
    refine ⟨?_, ?_⟩
    · rw [hcount, hfind, ← hcount]
    · simpa using hfind .dottedName
  · exact ⟨rfl, by simpa using h.text_eq⟩

/-- Among trees that are alike those from the first module on are alike. -/
theorem AlikeAll.dropWhile {p : Tree → Bool} (hp : ∀ t t', Alike t t' → p t = p t') (h : AlikeAll ts ts') :
    AlikeAll (ts.dropWhile p) (ts'.dropWhile p) := by
  induction ts generalizing ts' with
  | nil =>
    cases ts' with
    | nil => exact h
    | cons => cases h
  | cons t ts ih =>
    cases ts' with
    | nil => cases h
    | cons t' ts' =>
      rw [List.dropWhile_cons, List.dropWhile_cons, hp t t' h.1]
      split
      · exact ih h.2
      · exact h

/-- Statements behind `from` that are alike import the same, but for the blanks of the path. -/
theorem Alike.fromStatement?_eq (h : t.Alike t') :
    t.fromStatement?.map (fun i => i.unspaced.content) = t'.fromStatement?.map fun i => i.unspaced.content := by
  have hdrop := h.children.dropWhile (p := fun c => !(c.is .relativeName || c.is .dottedName))
    fun _ _ hc => by rw [hc.is_eq, hc.is_eq]
  unfold fromStatement?
  rw [List.span_eq_takeWhile_dropWhile, List.span_eq_takeWhile_dropWhile]
  generalize t.children.dropWhile _ = rest at hdrop
  generalize t'.children.dropWhile _ = rest' at hdrop
  cases rest <;> cases rest' <;> try cases hdrop
  · rfl
  next m rest m' rest' hm hrest =>
    have hmodule := hm.moduleOf_eq
    simp [ImportStatement.content, ImportStatement.unspaced, hmodule.1, hmodule.2, hrest.importedNamesOf_eq]

mutual

/-- Trees that are alike hold the same imports, but for the blanks of paths behind `from`. -/
theorem Alike.imports_eq : ∀ {t t' : Tree}, t.Alike t' →
    t.imports.map (fun i => i.unspaced.content) = t'.imports.map fun i => i.unspaced.content
  | node info children, node info' children', h => by
    unfold imports
    rw [h.is_eq, h.is_eq]
    split
    · rw [AlikeAll.importedNamesOf_eq h.2.2, List.map_map, List.map_map]
      rfl
    · split
      · rw [← Option.toList_map, ← Option.toList_map, h.fromStatement?_eq]
      · exact AlikeAll.importsOf_eq h.2.2

/-- Trees that are alike one by one hold the same imports, but for the blanks of paths behind `from`. -/
theorem AlikeAll.importsOf_eq : ∀ {ts ts' : List Tree}, AlikeAll ts ts' →
    (importsOf ts).map (fun i => i.unspaced.content) = (importsOf ts').map fun i => i.unspaced.content
  | [], [], _ => rfl
  | _ :: _, _ :: _, h => by
    rw [importsOf, importsOf, List.map_append, List.map_append, Alike.imports_eq h.1, AlikeAll.importsOf_eq h.2]

end

/-- Import statements without `from` import the same if they are alike. -/
theorem Alike.imports_content_eq (h : t.Alike t') (himport : t.is .importStatement = true) :
    t.imports.map ImportStatement.content = t'.imports.map ImportStatement.content := by
  have himport' : t'.is .importStatement = true := h.is_eq .importStatement ▸ himport
  cases t
  cases t'
  rw [imports, if_pos himport, imports, if_pos himport', AlikeAll.importedNamesOf_eq h.2.2, List.map_map, List.map_map]
  rfl

/-- The path behind `from` is the one behind `import`, with the blanks that are written. -/
theorem Alike.unspaced_moduleOf (h : t.Alike t') (hname : t.is .relativeName = false) :
    Text.unspaced t.moduleOf.2.toList = t'.plainName.toList := by
  rw [moduleOf, hname, if_neg (by decide), String.toList_ofList, h.text_eq, plainName, String.toList_ofList]
  rfl

end Tree

/-- Where `import` and `from` stand in front of the same path, the path behind `from` is the one behind `import`, with the
blanks that are written. -/
theorem PlainSource.ImportsFrom.exists_written {l l' : List Char} {ps ps' names : List Piece} {path : DottedPath}
    (h : ImportsPath l ps) (h' : ImportsFrom l' ps' names) (hsame : ps'.map Piece.text = ps.map Piece.text)
    (hpath : DottedPath.read? ps = some (path, [])) (line : Nat) :
    PlainSource.readLine? line l = some [⟨String.ofList path.plain, 0, [], line⟩] ∧
      ∃ written, Text.unspaced written = path.plain ∧ PlainSource.readLine? line l' =
        (readNames? names).map fun names => [⟨String.ofList written, 0, names, line⟩] := by
  have hbare := DottedPath.read?_bare ps'
  rw [map_bare_eq hsame, DottedPath.read?_bare, hpath] at hbare
  obtain ⟨⟨path', rest⟩, hpath', heq⟩ := Option.map_eq_some_iff.1 hbare.symm
  obtain rfl : rest = [] := List.map_eq_nil_iff.1 (Prod.mk.inj heq).2
  exact ⟨h.readLine? hpath line, _, h'.unspaced hsame hpath hpath', h'.readLine? hpath' line⟩

/-- Of a plain source its own reader decides. -/
theorem readImports_of_read? {source : String} {is : List ImportStatement}
    (h : PlainSource.read? source.toList = some is) : readImports source = .ok is := by
  rw [readImports, h]

/-- Blanks around the dots of its paths make no difference to an import statement, but for the blanks of the path behind
`from`, which is kept as it is written. A plain source in which blanks are put around a dot, of a path or in front of one, is
plain and makes the same statements: they differ at most by the blanks in their paths, and do not differ if the dot stands in
a line that does not begin with `from`. Of two lines with the same words and signs behind `import` and `from`, the second
names the same path as the first, with the blanks that are written. The same holds for all sources that are read by the
grammar: trees of the same shape over the same text, but for the blanks in it, hold imports of the same levels and names,
and of the same paths but for blanks; those of plain imports are the same, and the path behind `from` is without its blanks
the one behind `import`. -/
theorem blanks_in_imports (a b w w' : List Char) (hgaps : ∀ c ∈ w ++ w', c = ' ' ∨ c = '\t') :
    (let tight := String.ofList (a ++ '.' :: b)
      let loose := String.ofList (a ++ w ++ '.' :: (w' ++ b))
      (PlainSource.read? loose.toList).isSome = (PlainSource.read? tight.toList).isSome ∧
        ∀ is, PlainSource.read? tight.toList = some is → readImports tight = .ok is ∧
          ∃ is', readImports loose = .ok is' ∧ is'.map ImportStatement.unspaced = is.map ImportStatement.unspaced ∧
            (¬ "from".toList <+: PlainSource.lastLine [] a → is' = is)) ∧
    (∀ (line : Nat) (l l' : List Char) (ps ps' names : List PlainSource.Piece) (path : PlainSource.DottedPath),
      PlainSource.ImportsPath l ps → PlainSource.ImportsFrom l' ps' names →
      ps'.map PlainSource.Piece.text = ps.map PlainSource.Piece.text →
      PlainSource.DottedPath.read? ps = some (path, []) →
      PlainSource.readLine? line l = some [⟨String.ofList path.plain, 0, [], line⟩] ∧
        ∃ written, Text.unspaced written = path.plain ∧ PlainSource.readLine? line l' =
          (PlainSource.readNames? names).map fun names => [⟨String.ofList written, 0, names, line⟩]) ∧
    ∀ t t' : Tree, t.Alike t' →
      (t.imports.map fun i => i.unspaced.content) = (t'.imports.map fun i => i.unspaced.content) ∧
      (t.is .importStatement = true → t.imports.map ImportStatement.content = t'.imports.map ImportStatement.content) ∧
      (t.is .relativeName = false → Text.unspaced t.moduleOf.2.toList = t'.plainName.toList) := by
  refine ⟨?_, fun line l l' ps ps' names path h h' hsame hpath => h'.exists_written h hsame hpath line,
    fun t t' h => ⟨h.imports_eq, h.imports_content_eq, h.unspaced_moduleOf⟩⟩
  intro tight loose
  have hw : PlainSource.Piece.IsGap w := fun c hc => hgaps c (List.mem_append_left _ hc)
  have hw' : PlainSource.Piece.IsGap w' := fun c hc => hgaps c (List.mem_append_right _ hc)
  have hsame := PlainSource.read?_unspaced hw hw' a b
  have htight : tight.toList = a ++ '.' :: b := String.toList_ofList
  have hloose : loose.toList = a ++ w ++ '.' :: (w' ++ b) := String.toList_ofList
  rw [← htight, ← hloose] at hsame
  refine ⟨by simpa using (congrArg Option.isSome hsame).symm, fun is his => ⟨readImports_of_read? his, ?_⟩⟩
  rw [his] at hsame
  obtain ⟨is', his', heq⟩ := Option.map_eq_some_iff.1 hsame.symm
  refine ⟨is', readImports_of_read? his', heq, fun hfrom => ?_⟩
  have hread := PlainSource.read?_eq hw hw' b hfrom
  rw [← htight, ← hloose, his, his'] at hread
  exact (Option.some.inj hread).symm

/-- Blanks around a dot of an import, in front of an import from the same path. -/
theorem blanks_in_imports_pair :
    let loose := String.ofList ("import a".toList ++ [' '] ++ '.' :: (['\t'] ++ "b\nfrom a. b import (c . d, e as f,)\n".toList))
    readImports loose = .ok [⟨"a.b", 0, [], 1⟩, ⟨"a. b", 0, ["c.d", "e"], 2⟩] := by
  intro loose
  have h := (blanks_in_imports "import a".toList "b\nfrom a. b import (c . d, e as f,)\n".toList [' '] ['\t'] (by simp)).1
  obtain ⟨_, is', hread, _, hsame⟩ := h.2 [⟨"a.b", 0, [], 1⟩, ⟨"a. b", 0, ["c.d", "e"], 2⟩] (by decide +kernel)
  rw [hread, hsame (by decide)]

/-- The path behind `from` is written with the blanks around its dot, and so it is not the one without them, nor the one
behind `import`. -/
theorem blanks_kept_behind_from :
    readImports "from a.b import c\n" = .ok [⟨"a.b", 0, ["c"], 1⟩] ∧
      readImports "from a . b import c\n" = .ok [⟨"a . b", 0, ["c"], 1⟩] ∧
      readImports "from .. a . b import c\n" = .ok [⟨"a . b", 2, ["c"], 1⟩] ∧
      readImports "import a . b\n" = .ok [⟨"a.b", 0, [], 1⟩] := by
  refine ⟨?_, ?_, ?_, ?_⟩ <;> exact readImports_of_read? (by decide +kernel)

end Python

end ImportClosure
