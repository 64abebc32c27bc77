import ImportClosure.Proofs.Shapes
import Mathlib.Data.List.Lex
import Mathlib.Data.Nat.Basic

/-!
# Texts, byte by byte

What the bytes of a text in UTF-8 tell about the text. Of two characters the earlier one is encoded by earlier bytes,
whatever stands behind it (`encode_append_lt`), so texts are ordered as their bytes are (`bytes_lt_iff`), and the bytes of
a text begin with those of another exactly if the text begins with it (`bytes_prefix_iff`): bytes that begin a text end
between two of its characters.
-/

namespace ImportClosure.Text

/-- The bytes of a text in UTF-8, as numbers. -/
def bytes (s : String) : List Nat :=
  s.toUTF8.toList.map UInt8.toNat

/-- The bytes of a character. -/
def encode (c : Char) : List Nat :=
  (String.utf8EncodeChar c).map UInt8.toNat

variable {c d : Char} {s t : String} {cs ds : List Char}

/-! ## Characters -/

/-- There are no more code points than these. -/
theorem toNat_lt (c : Char) : c.toNat < 1114112 := by
  rcases c.valid with h | h
  · exact Nat.lt_trans h (by decide)
  · exact h.2

/-- The digits of a character to the base 64, each one marked as the first byte or as one of the others. -/
theorem encode_eq (c : Char) : encode c =
    if c.toNat ≤ 127 then [c.toNat]
    else if c.toNat ≤ 2047 then [c.toNat / 64 + 192, c.toNat % 64 + 128]
    else if c.toNat ≤ 65535 then [c.toNat / 4096 + 224, c.toNat / 64 % 64 + 128, c.toNat % 64 + 128]
    else [c.toNat / 262144 + 240, c.toNat / 4096 % 64 + 128, c.toNat / 64 % 64 + 128, c.toNat % 64 + 128] := by
  have hval : c.val.toNat = c.toNat := rfl
  have hlt := toNat_lt c
  unfold encode String.utf8EncodeChar
  simp only [hval]
  split_ifs <;> simp [UInt8.toNat_ofNat', -Char.toNat_val] <;> omega

/-- A character has at least one byte. -/
theorem encode_ne_nil (c : Char) : encode c ≠ [] := by
  rw [encode_eq]
  split_ifs <;> simp

/-- Of two characters the earlier one has the earlier bytes, and what stands behind them does not matter. -/
theorem encode_append_lt (h : c.toNat < d.toNat) (more more' : List Nat) : encode c ++ more < encode d ++ more' := by
  have hc := toNat_lt c
  have hd := toNat_lt d
  rw [encode_eq, encode_eq]
  split_ifs <;> simp only [List.cons_append, List.nil_append, List.cons_lt_cons_iff] <;> omega

/-- Different characters have bytes of which neither begin with the others. -/
theorem encode_append_ne (h : c ≠ d) (more more' : List Nat) : encode c ++ more ≠ encode d ++ more' := by
  intro heq
  have hne : c.toNat ≠ d.toNat := fun hval => h (Char.toNat_inj.1 hval)
  rcases Nat.lt_or_gt_of_ne hne with hlt | hlt
  · exact (encode_append_lt hlt more more').ne heq
  · exact (encode_append_lt hlt more' more).ne heq.symm

/-- A dot is a byte of its own, and no other character begins with it. -/
theorem head?_encode_eq_dot : (encode c).head? = some 46 ↔ c = '.' := by
  constructor
  · intro h
    have hlt := toNat_lt c
    have hval : c.toNat = '.'.toNat := by
      rw [show '.'.toNat = 46 from rfl]
      rw [encode_eq] at h
      split_ifs at h <;> simp only [List.head?_cons, Option.some.injEq] at h <;> omega
    exact Char.toNat_inj.1 hval
  · rintro rfl
    rfl

/-! ## Texts -/

/-- The bytes of a text are those of its characters, one after the other. -/
theorem bytes_eq_flatMap (s : String) : bytes s = s.toList.flatMap encode := by
  rw [bytes, bytes_eq, List.map_flatMap]
  rfl

/-- The bytes of two texts, one after the other, are those of both. -/
@[simp] theorem bytes_append (s t : String) : bytes (s ++ t) = bytes s ++ bytes t := by
  simp [bytes_eq_flatMap]

/-- Characters are ordered like their bytes. -/
theorem flatMap_encode_lt_iff : cs.flatMap encode < ds.flatMap encode ↔ cs < ds := by
  induction cs generalizing ds with
  | nil =>
    cases ds with
    | nil => simp
    | cons d ds =>
      obtain ⟨b, more, hb⟩ := List.exists_cons_of_ne_nil (encode_ne_nil d)
      simp [hb]
  | cons c cs ih =>
    cases ds with
    | nil => simp
    | cons d ds =>
      rw [List.flatMap_cons, List.flatMap_cons, List.cons_lt_cons_iff]
      rcases Nat.lt_trichotomy c.toNat d.toNat with h | h | h
      · exact iff_of_true (encode_append_lt h _ _) (Or.inl h)
      · obtain rfl := Char.toNat_inj.1 h
        have hcancel : encode c ++ cs.flatMap encode < encode c ++ ds.flatMap encode ↔
            cs.flatMap encode < ds.flatMap encode := by
          induction encode c with
          | nil => rfl
          | cons b more ih => rw [List.cons_append, List.cons_append, List.cons_lt_cons_self, ih]
        simp [hcancel, ih]
      · refine iff_of_false (encode_append_lt h _ _).asymm ?_
        rintro (hlt | ⟨rfl, _⟩)
        · exact Nat.lt_asymm h hlt
        · exact Nat.lt_irrefl _ h

/-- Texts are ordered as their bytes are. -/
theorem bytes_lt_iff : bytes s < bytes t ↔ s < t := by
  rw [bytes_eq_flatMap, bytes_eq_flatMap, flatMap_encode_lt_iff, String.lt_iff]

/-- A beginning of the bytes that consists of whole characters is a beginning of the text. -/
theorem flatMap_encode_prefix_iff : cs.flatMap encode <+: ds.flatMap encode ↔ cs <+: ds := by
  refine ⟨fun h => ?_, fun ⟨more, hmore⟩ => ⟨more.flatMap encode, by rw [← hmore, List.flatMap_append]⟩⟩
  induction cs generalizing ds with
  | nil => exact List.nil_prefix
  | cons c cs ih =>
    obtain ⟨more, hmore⟩ := h
    rw [List.flatMap_cons, List.append_assoc] at hmore
    cases ds with
    | nil => exact absurd (List.append_eq_nil_iff.1 hmore).1 (encode_ne_nil c)
    | cons d ds =>
      obtain rfl : c = d := by
        by_contra hne
        exact encode_append_ne hne _ _ hmore
      exact List.cons_prefix_cons.2 ⟨rfl, ih ⟨more, List.append_cancel_left hmore⟩⟩

/-- A text begins with another exactly if its bytes begin with those of the other. -/
theorem bytes_prefix_iff : bytes s <+: bytes t ↔ s.toList <+: t.toList := by
  rw [bytes_eq_flatMap, bytes_eq_flatMap, flatMap_encode_prefix_iff]

/-- Texts with the same bytes are the same. -/
theorem bytes_inj : bytes s = bytes t ↔ s = t := by
  refine ⟨fun h => ?_, congrArg bytes⟩
  have hst : s.toList <+: t.toList := bytes_prefix_iff.1 (h ▸ List.prefix_refl _)
  have hts : t.toList <+: s.toList := bytes_prefix_iff.1 (h ▸ List.prefix_refl _)
  exact String.toList_inj.1 (hst.eq_of_length (Nat.le_antisymm hst.length_le hts.length_le))

end ImportClosure.Text
