import Mathlib.Data.Finset.Card

/-!
# First members

The members of a list that come first with their key (`firsts`). A member at the end joins them if its key is new
(`firsts_concat`), so they are what is left of a sequence of registrations of which the first one counts: under every key
they hold what the list holds first (`find?_firsts`), and there are as many of them as there are keys (`length_firsts`).
-/

namespace ImportClosure

variable {α κ : Type} [DecidableEq κ] {key : α → κ} {l l' : List α} {a : α} {i : κ}

/-- The members of a list whose key no member in front of them has. -/
def firsts (key : α → κ) (l : List α) : List α :=
  l.eraseDupsBy fun a b => decide (key a = key b)

@[simp] theorem firsts_nil : firsts key [] = [] := rfl

/-- The first of a list stays, and all others of its key go. -/
theorem firsts_cons (a : α) (l : List α) :
    firsts key (a :: l) = a :: firsts key (l.filter fun b => decide (key b ≠ key a)) := by
  simp [firsts, List.eraseDupsBy_cons]

/-- A member at the end is a first one if its key is new. -/
theorem firsts_concat (l : List α) (a : α) :
    firsts key (l ++ [a]) = if key a ∈ l.map key then firsts key l else firsts key l ++ [a] := by
  cases l with
  | nil => simp [firsts_cons]
  | cons b l =>
    rw [List.cons_append, firsts_cons, firsts_cons, List.filter_append]
    by_cases hb : key a = key b
    · simp [hb]
    · have hmem : key a ∈ (l.filter fun c => decide (key c ≠ key b)).map key ↔ key a ∈ (b :: l).map key := by
        simp only [List.mem_map, List.mem_filter, decide_eq_true_eq, List.mem_cons, exists_eq_or_imp, Ne.symm hb, false_or]
        constructor
        · rintro ⟨c, ⟨hc, -⟩, hkey⟩
          exact ⟨c, hc, hkey⟩
        · rintro ⟨c, hc, hkey⟩
          exact ⟨c, ⟨hc, fun heq => hb (hkey.symm.trans heq)⟩, hkey⟩
      have hstays : [a].filter (fun c => decide (key c ≠ key b)) = [a] := by simp [hb]
      have ih := firsts_concat (l.filter fun c => decide (key c ≠ key b)) a
      rw [if_congr hmem rfl rfl] at ih
      rw [hstays, ih]
      split <;> rfl
termination_by l.length
decreasing_by
  simpa using Nat.lt_succ_of_le (List.length_filter_le _ l)

/-- The first ones have every key of the list. -/
theorem mem_keys_firsts : i ∈ (firsts key l).map key ↔ i ∈ l.map key := by
  induction l using List.reverseRecOn with
  | nil => rfl
  | append_singleton l a ih =>
    rw [firsts_concat]
    split
    next h =>
      rw [ih, List.map_append, List.mem_append]
      refine (or_iff_left_of_imp fun hi => ?_).symm
      rwa [List.mem_singleton.1 hi]
    next => rw [List.map_append, List.map_append, List.mem_append, List.mem_append, ih]

/-- No two of them have the same key. -/
theorem nodup_keys_firsts : ((firsts key l).map key).Nodup := by
  induction l using List.reverseRecOn with
  | nil => exact List.nodup_nil
  | append_singleton l a ih =>
    rw [firsts_concat]
    split
    next => exact ih
    next h =>
      rw [List.map_append, List.map_singleton]
      refine List.nodup_append.2 ⟨ih, List.nodup_singleton _, ?_⟩
      rintro k hk _ ha rfl
      exact h (List.mem_singleton.1 ha ▸ mem_keys_firsts.1 hk)

/-- Under each key they hold what the list holds first. -/
theorem find?_firsts (l : List α) (i : κ) :
    ((firsts key l).find? fun a => decide (key a = i)) = l.find? fun a => decide (key a = i) := by
  induction l using List.reverseRecOn with
  | nil => rfl
  | append_singleton l a ih =>
    rw [firsts_concat, List.find?_append]
    split
    next h =>
      rw [ih]
      by_cases ha : key a = i
      · obtain ⟨b, hb, hkey⟩ := List.mem_map.1 h
        have hsome : (l.find? fun a => decide (key a = i)).isSome := List.find?_isSome.2 ⟨b, hb, by simp [hkey, ha]⟩
        rw [Option.or_of_isSome hsome]
      · simp [ha]
    next => rw [List.find?_append, ih]

/-- A member is a first one if it is what the list holds first under its key. -/
theorem mem_firsts : a ∈ firsts key l ↔ (l.find? fun b => decide (key b = key a)) = some a := by
  rw [← find?_firsts]
  refine ⟨fun h => ?_, List.mem_of_find?_eq_some⟩
  have hsome : ((firsts key l).find? fun b => decide (key b = key a)).isSome := List.find?_isSome.2 ⟨a, h, by simp⟩
  obtain ⟨b, hb⟩ := Option.isSome_iff_exists.1 hsome
  have hkey : key b = key a := by simpa using List.find?_some hb
  rw [hb, List.inj_on_of_nodup_map nodup_keys_firsts (List.mem_of_find?_eq_some hb) h hkey]

/-- There are as many of them as there are keys. -/
theorem length_firsts : (firsts key l).length = (l.map key).toFinset.card := by
  have hkeys : ((firsts key l).map key).toFinset = (l.map key).toFinset := by
    ext i
    rw [List.mem_toFinset, List.mem_toFinset, mem_keys_firsts]
  rw [← hkeys, List.toFinset_card_of_nodup nodup_keys_firsts, List.length_map]

/-- No two of the first ones have the same key. -/
theorem nodup_firsts : (firsts key l).Nodup :=
  nodup_keys_firsts.of_map key

/-- Lists that hold the same under each key have the same first members, in some order. -/
theorem perm_firsts (h : ∀ i, (l.find? fun a => decide (key a = i)) = l'.find? fun a => decide (key a = i)) :
    (firsts key l).Perm (firsts key l') := by
  refine (List.perm_ext_iff_of_nodup nodup_firsts nodup_firsts).2 fun a => ?_
  rw [mem_firsts, mem_firsts, h]

end ImportClosure
