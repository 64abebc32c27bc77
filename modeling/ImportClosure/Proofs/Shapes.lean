import ImportClosure.Glob.Shape

/-!
# What shapes take

A shape takes a text if reading it off the front leaves nothing. Whatever else may be left of a text stands behind one
that the shape takes (`mem_rests_iff`), so shapes can be told by the texts they take, one after the other or one or the
other.
-/

namespace ImportClosure

/-! ## The bytes of a text -/

namespace Text

theorem toList_loop (b : ByteArray) (i : Nat) (read : List UInt8) :
    ByteArray.toList.loop b i read = read.reverse ++ b.data.toList.drop i := by
  fun_induction ByteArray.toList.loop b i read with
  | case1 i read h ih =>
    have hi : i < b.data.toList.length := by simpa using h
    rw [ih, List.drop_eq_getElem_cons hi]
    simp [ByteArray.get!, h]
  | case2 i read h => simp [List.drop_eq_nil_of_le (show b.data.toList.length ≤ i by simpa using h)]

/-- The bytes of a text are those of its characters. -/
theorem bytes_eq (s : String) : s.toUTF8.toList = s.toList.flatMap String.utf8EncodeChar := by
  obtain ⟨cs, rfl⟩ : ∃ cs, s = String.ofList cs := ⟨s.toList, String.ofList_toList.symm⟩
  have hlist : ∀ b : ByteArray, b.toList = b.data.toList := fun b => toList_loop b 0 []
  rw [String.toUTF8_eq_toByteArray, hlist, String.toByteArray_ofList, String.toList_ofList]
  exact List.toList_data_toByteArray

end Text

namespace Shape

variable {shape first second : Shape} {shapes more : List Shape} {s t u v : List UInt8}

/-! ## What is left of a text -/

/-- A shape takes a text from its first byte to its last. -/
def Takes (shape : Shape) (s : List UInt8) : Prop :=
  [] ∈ shape.rests s

/-- A string has a shape exactly if the shape takes its bytes. -/
theorem fits_iff {s : String} : shape.fits s = true ↔ shape.Takes s.toUTF8.toList := by
  simp [fits, Takes]

/-- The tails of a text are its ends. -/
theorem mem_tails : t ∈ tails s ↔ t <:+ s := by
  induction s with
  | nil => simp [tails]
  | cons b s ih => simp [tails, ih, List.suffix_cons_iff]

/-- A byte that fits is followed by the rest. -/
theorem mem_afterByte {fits : UInt8 → Bool} : t ∈ afterByte fits s ↔ ∃ b, fits b = true ∧ s = b :: t := by
  cases s with
  | nil => simp [afterByte]
  | cons b s =>
    by_cases hb : fits b = true
    · simp only [afterByte, hb, if_true, List.mem_singleton, List.cons.injEq]
      constructor
      · rintro rfl
        exact ⟨b, hb, rfl, rfl⟩
      · rintro ⟨_, _, _, rfl⟩
        rfl
    · simp only [afterByte, hb, Bool.false_eq_true, if_false, List.not_mem_nil, false_iff]
      rintro ⟨_, hb', h⟩
      obtain ⟨rfl, _⟩ := List.cons.inj h
      exact hb hb'

/-- What is left after one byte stands behind a text of one such byte. -/
theorem mem_afterByte_iff {fits : UInt8 → Bool} :
    t ∈ afterByte fits s ↔ ∃ u, s = u ++ t ∧ [] ∈ afterByte fits u := by
  simp only [mem_afterByte]
  constructor
  · rintro ⟨b, hb, rfl⟩
    exact ⟨[b], rfl, b, hb, rfl⟩
  · rintro ⟨u, rfl, b, hb, rfl⟩
    exact ⟨b, hb, rfl⟩

/-- What may be left of a text stands behind one that the shape takes. -/
theorem mem_rests_iff : t ∈ shape.rests s ↔ ∃ u, s = u ++ t ∧ shape.Takes u := by
  unfold Takes
  induction shape generalizing s t with
  | nothing => simp [rests, eq_comm]
  | anyByte => exact mem_afterByte_iff
  | anyText =>
    simp only [rests, mem_tails, List.nil_suffix, and_true]
    exact ⟨fun ⟨u, hu⟩ => ⟨u, hu.symm⟩, fun ⟨u, hu⟩ => ⟨u, hu.symm⟩⟩
  | oneOf ranges => exact mem_afterByte_iff
  | noneOf ranges => exact mem_afterByte_iff
  | before first second ih₁ ih₂ =>
    simp only [rests, List.mem_eraseDups, List.mem_flatMap]
    constructor
    · rintro ⟨r, hr, ht⟩
      obtain ⟨u, rfl, hu⟩ := ih₁.1 hr
      obtain ⟨v, rfl, hv⟩ := ih₂.1 ht
      exact ⟨u ++ v, (List.append_assoc u v t).symm, v, ih₁.2 ⟨u, rfl, hu⟩, hv⟩
    · rintro ⟨w, rfl, v, hv, hw⟩
      obtain ⟨u, rfl, hu⟩ := ih₁.1 hv
      exact ⟨v ++ t, ih₁.2 ⟨u, List.append_assoc u v t, hu⟩, ih₂.2 ⟨v, rfl, hw⟩⟩
  | either first second ih₁ ih₂ =>
    simp only [rests, List.mem_eraseDups, List.mem_append]
    constructor
    · rintro (ht | ht)
      · obtain ⟨u, rfl, hu⟩ := ih₁.1 ht
        exact ⟨u, rfl, Or.inl hu⟩
      · obtain ⟨u, rfl, hu⟩ := ih₂.1 ht
        exact ⟨u, rfl, Or.inr hu⟩
    · rintro ⟨u, rfl, hu | hu⟩
      · exact Or.inl (ih₁.2 ⟨u, rfl, hu⟩)
      · exact Or.inr (ih₂.2 ⟨u, rfl, hu⟩)

/-! ## Shape by shape -/

@[simp] theorem takes_nothing : nothing.Takes s ↔ s = [] := by
  simp [Takes, rests, eq_comm]

/-- Any text is taken for any text. -/
@[simp] theorem takes_anyText : anyText.Takes s := by
  simp [Takes, rests, mem_tails]

@[simp] theorem takes_byte {b : UInt8} : (byte b).Takes s ↔ s = [b] := by
  simp only [Takes, byte, rests, mem_afterByte, inRanges, List.any_cons, List.any_nil, Bool.or_false, Bool.and_eq_true,
    decide_eq_true_eq]
  constructor
  · rintro ⟨c, ⟨hlow, hhigh⟩, rfl⟩
    rw [UInt8.le_antisymm hhigh hlow]
  · rintro rfl
    exact ⟨b, ⟨UInt8.le_refl b, UInt8.le_refl b⟩, rfl⟩

/-- A text is taken in two parts. -/
@[simp] theorem takes_before : (before first second).Takes s ↔ ∃ u v, s = u ++ v ∧ first.Takes u ∧ second.Takes v := by
  have h : (before first second).Takes s ↔ ∃ v ∈ first.rests s, second.Takes v := by simp [Takes, rests]
  rw [h]
  constructor
  · rintro ⟨v, hv, hs⟩
    obtain ⟨u, rfl, hu⟩ := mem_rests_iff.1 hv
    exact ⟨u, v, rfl, hu, hs⟩
  · rintro ⟨u, v, rfl, hu, hv⟩
    exact ⟨v, mem_rests_iff.2 ⟨u, rfl, hu⟩, hv⟩

@[simp] theorem takes_either : (either first second).Takes s ↔ first.Takes s ∨ second.Takes s := by
  simp [Takes, rests]

/-- Shapes one after the other take texts one after the other. -/
theorem takes_all_cons : (all (shape :: shapes)).Takes s ↔ ∃ u v, s = u ++ v ∧ shape.Takes u ∧ (all shapes).Takes v := by
  cases shapes with
  | nil => simp [all]
  | cons next shapes => exact takes_before

/-- A text is taken in two parts by shapes in a row. -/
theorem takes_all_append :
    (all (shapes ++ more)).Takes s ↔ ∃ u v, s = u ++ v ∧ (all shapes).Takes u ∧ (all more).Takes v := by
  induction shapes generalizing s with
  | nil =>
    constructor
    · intro h
      exact ⟨[], s, rfl, takes_nothing.2 rfl, h⟩
    · rintro ⟨u, v, rfl, hu, hv⟩
      rw [takes_nothing.1 hu]
      exact hv
  | cons shape shapes ih =>
    simp only [List.cons_append, takes_all_cons, ih]
    constructor
    · rintro ⟨u, _, rfl, hu, v, w, rfl, hv, hw⟩
      exact ⟨u ++ v, w, (List.append_assoc u v w).symm, ⟨u, v, rfl, hu, hv⟩, hw⟩
    · rintro ⟨_, w, rfl, ⟨u, v, rfl, hu, hv⟩, hw⟩
      exact ⟨u, v ++ w, List.append_assoc u v w, hu, v, w, rfl, hv, hw⟩

/-- A character takes its own bytes. -/
@[simp] theorem takes_char {c : Char} : (char c).Takes s ↔ s = String.utf8EncodeChar c := by
  unfold char
  induction String.utf8EncodeChar c generalizing s with
  | nil => simp [all]
  | cons b bytes ih => simp [takes_all_cons, ih]

end Shape

end ImportClosure
