import ImportClosure.Module.Record
import ImportClosure.Proofs.Bytes
import Mathlib.Data.Prod.Lex

/-!
# The order of identities

What identities are compared by, written as one key in a linear order (`Identity.sortKey`): the bytes of the name, then
the components of the place, a root in front of names and names by their bytes. Different identities have different keys
(`Identity.sortKey_injective`), so of two of them exactly one comes first (`Identity.lt_iff`).
-/

namespace ImportClosure

namespace Path

namespace Component

/-- What the order of components goes by. -/
def sortKey (c : Component) : Nat ×ₗ List Nat :=
  toLex (c.rank, Text.bytes c.text)

/-- Components with the same sort key are the same. -/
theorem sortKey_injective : Function.Injective sortKey := by
  intro a b h
  have hkey : (a.rank, Text.bytes a.text) = (b.rank, Text.bytes b.text) := h
  obtain ⟨hrank, htext⟩ := Prod.mk.inj hkey
  rw [Text.bytes_inj] at htext
  cases a <;> cases b <;> simp_all [rank, text]

/-- Components are ordered by their sort keys. -/
theorem lt_iff {a b : Component} : a.lt b = true ↔ a.sortKey < b.sortKey := by
  rw [sortKey, sortKey, Prod.Lex.toLex_lt_toLex, Text.bytes_lt_iff]
  simp [lt]

end Component

/-- Paths are ordered like the sort keys of their components. -/
theorem componentsLt_iff {as bs : List Component} :
    componentsLt as bs = true ↔ as.map Component.sortKey < bs.map Component.sortKey := by
  induction as generalizing bs with
  | nil => cases bs <;> simp [componentsLt]
  | cons a as ih =>
    cases bs with
    | nil => simp [componentsLt]
    | cons b bs =>
      rw [componentsLt, List.map_cons, List.map_cons, List.cons_lt_cons_iff, Bool.or_eq_true, Bool.and_eq_true,
        Component.lt_iff, beq_iff_eq, ih, Component.sortKey_injective.eq_iff]

end Path

namespace Identity

/-- What the order of identities goes by: the bytes of the name, then the components of the place. -/
def sortKey (i : Identity) : List Nat ×ₗ List (Nat ×ₗ List Nat) :=
  toLex (Text.bytes i.name.text, i.place.map Path.Component.sortKey)

/-- Identities with the same sort key are the same. -/
theorem sortKey_injective : Function.Injective sortKey := by
  rintro ⟨⟨name⟩, place⟩ ⟨⟨name'⟩, place'⟩ h
  have hkey : (Text.bytes name, place.map Path.Component.sortKey) =
      (Text.bytes name', place'.map Path.Component.sortKey) := h
  obtain ⟨hname, hplace⟩ := Prod.mk.inj hkey
  rw [Text.bytes_inj.1 hname, (Path.Component.sortKey_injective.list_map) hplace]

/-- Identities are ordered by their sort keys. -/
theorem lt_iff {i j : Identity} : i.lt j = true ↔ i.sortKey < j.sortKey := by
  obtain ⟨⟨name⟩, place⟩ := i
  obtain ⟨⟨name'⟩, place'⟩ := j
  rw [sortKey, sortKey, Prod.Lex.toLex_lt_toLex, Text.bytes_lt_iff, Text.bytes_inj, ← Path.componentsLt_iff]
  simp [lt, ModuleName.lt]

end Identity

end ImportClosure
