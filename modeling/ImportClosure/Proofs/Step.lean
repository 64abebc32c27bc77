import ImportClosure.Session

/-!
# Steps

What a step comes to, one operation of the monad at a time: `Step.ends` of each is computed from `Step.ends` of its
parts.
-/

namespace ImportClosure

namespace Step

variable {σ α β : Type}

@[simp] theorem ends_pure (a : α) (s : Session σ) : ends (pure a) s = (.ok a, s) := rfl

@[simp] theorem ends_throw (err : Error) (s : Session σ) :
    ends (throw err : Step σ α) s = (.error err, s) := rfl

@[simp] theorem ends_get (s : Session σ) : ends (get : Step σ (Session σ)) s = (.ok s, s) := rfl

@[simp] theorem ends_set (s' s : Session σ) : ends (set s' : Step σ PUnit) s = (.ok ⟨⟩, s') := rfl

@[simp] theorem ends_update (f : Session σ → Session σ) (s : Session σ) :
    ends (Engine.update f) s = (.ok (), f s) := rfl

/-- A step with another behind it: an error ends both. -/
theorem ends_bind (x : Step σ α) (f : α → Step σ β) (s : Session σ) :
    ends (x >>= f) s = match ends x s with
      | (.ok a, s') => ends (f a) s'
      | (.error err, s') => (.error err, s') := by
  simp only [ends, ExceptT.run_bind, StateT.run_bind]
  rcases StateT.run (ExceptT.run x) s with ⟨r | a, s'⟩ <;> rfl

/-- A step that comes to a value goes on with it. -/
theorem ends_bind_ok {x : Step σ α} {a : α} {s s' : Session σ} (h : ends x s = (.ok a, s')) (f : α → Step σ β) :
    ends (x >>= f) s = ends (f a) s' := by
  rw [ends_bind, h]

/-- A step that ends in an error ends there. -/
theorem ends_bind_error {x : Step σ α} {err : Error} {s s' : Session σ} (h : ends x s = (.error err, s'))
    (f : α → Step σ β) : ends (x >>= f) s = (.error err, s') := by
  rw [ends_bind, h]

/-- Two steps come to a value through the value of the first. -/
theorem exists_of_ends_bind {x : Step σ α} {f : α → Step σ β} {s s' : Session σ} {b : β}
    (h : ends (x >>= f) s = (.ok b, s')) : ∃ a s₁, ends x s = (.ok a, s₁) ∧ ends (f a) s₁ = (.ok b, s') := by
  rw [ends_bind] at h
  rcases hx : ends x s with ⟨err | a, s₁⟩ <;> rw [hx] at h
  · cases h
  · exact ⟨a, s₁, rfl, h⟩

/-- Two steps end in an error of the first, or in one of the second behind a value of the first. -/
theorem error_of_ends_bind {x : Step σ α} {f : α → Step σ β} {s s' : Session σ} {err : Error}
    (h : ends (x >>= f) s = (.error err, s')) :
    ends x s = (.error err, s') ∨ ∃ a s₁, ends x s = (.ok a, s₁) ∧ ends (f a) s₁ = (.error err, s') := by
  rw [ends_bind] at h
  rcases hx : ends x s with ⟨err' | a, s₁⟩ <;> rw [hx] at h
  · cases h
    exact Or.inl rfl
  · exact Or.inr ⟨a, s₁, rfl, h⟩

/-- What a step leaves is left as well if its value is dropped. -/
theorem snd_ends_drop (x : Step σ α) (s : Session σ) :
    (ends (x >>= fun _ => (pure () : Step σ Unit)) s).2 = (ends x s).2 := by
  rw [ends_bind]
  rcases ends x s with ⟨err | a, s'⟩ <;> rfl

/-- Steps for all members of a list end in an error of one of them. -/
theorem error_of_ends_forM {xs : List α} {f : α → Step σ PUnit} {s s' : Session σ} {err : Error}
    (h : ends (xs.forM f) s = (.error err, s')) : ∃ x ∈ xs, ∃ s₁, ends (f x) s₁ = (.error err, s') := by
  induction xs generalizing s with
  | nil => cases h
  | cons x xs ih =>
    rcases error_of_ends_bind h with hx | ⟨_, s₁, _, hxs⟩
    · exact ⟨x, List.mem_cons_self, s, hx⟩
    · obtain ⟨y, hy, s₂, hf⟩ := ih hxs
      exact ⟨y, List.mem_cons_of_mem x hy, s₂, hf⟩

/-- The members of a list that steps come to: all of them, or those up to the first whose step fails. -/
def reached (f : α → Step σ PUnit) : List α → Session σ → List α
  | [], _ => []
  | x :: xs, s =>
    match ends (f x) s with
    | (.ok _, s') => x :: reached f xs s'
    | (.error _, _) => [x]

/-- The members that steps come to are the first ones. -/
theorem reached_prefix (f : α → Step σ PUnit) (xs : List α) (s : Session σ) : reached f xs s <+: xs := by
  induction xs generalizing s with
  | nil => exact List.prefix_refl _
  | cons x xs ih =>
    unfold reached
    split
    · exact (List.prefix_cons_inj x).2 (ih _)
    · exact ⟨xs, rfl⟩

/-- If the steps for all members succeed, they come to all of them. -/
theorem reached_eq_self {f : α → Step σ PUnit} {xs : List α} {s s' : Session σ} {u : PUnit}
    (h : ends (xs.forM f) s = (.ok u, s')) : reached f xs s = xs := by
  induction xs generalizing s with
  | nil => rfl
  | cons x xs ih =>
    obtain ⟨_, s₁, hx, hxs⟩ := exists_of_ends_bind h
    unfold reached
    simp only [hx]
    rw [ih hxs]

/-- If one of the steps fails, it is the last that is come to, and those in front of it have succeeded. -/
theorem exists_of_reached {f : α → Step σ PUnit} {xs : List α} {s s' : Session σ} {err : Error}
    (h : ends (xs.forM f) s = (.error err, s')) :
    ∃ before x s₁, reached f xs s = before ++ [x] ∧ ends (before.forM f) s = (.ok ⟨⟩, s₁) ∧
      ends (f x) s₁ = (.error err, s') := by
  induction xs generalizing s with
  | nil => cases h
  | cons x xs ih =>
    unfold reached
    rcases error_of_ends_bind h with hx | ⟨_, s₁, hx, hxs⟩
    · exact ⟨[], x, s, by simp only [hx]; rfl, rfl, hx⟩
    · obtain ⟨before, x', s₂, hreached, hbefore, hx'⟩ := ih hxs
      refine ⟨x :: before, x', s₂, ?_, ?_, hx'⟩
      · simp only [hx]
        rw [hreached, List.cons_append]
      · exact (ends_bind_ok hx _).trans hbefore

/-- What holds of the members of a list that have been dealt with holds of the whole list if the steps for all of them
succeed. -/
theorem keeps_of_ends_forM {xs : List α} {f : α → Step σ PUnit} {s s' : Session σ} {I : List α → Session σ → Prop}
    (step : ∀ before x s s', x ∈ xs → I before s → ends (f x) s = (.ok ⟨⟩, s') → I (before ++ [x]) s')
    (h : ends (xs.forM f) s = (.ok ⟨⟩, s')) {before : List α} (hs : I before s) : I (before ++ xs) s' := by
  induction xs generalizing s before with
  | nil =>
    cases h
    simpa using hs
  | cons x xs ih =>
    obtain ⟨_, s₁, hx, hxs⟩ := exists_of_ends_bind h
    have hs₁ := step before x s s₁ List.mem_cons_self hs hx
    have hrest := ih (fun before y s s' hy => step before y s s' (List.mem_cons_of_mem x hy)) hxs hs₁
    rwa [List.append_assoc] at hrest

/-- Rewording the errors of a step changes neither its values nor the session. -/
theorem ends_adapt (g : Error → Error) (x : Step σ α) (s : Session σ) :
    ends (x.adapt g) s = ((ends x s).1.mapError g, (ends x s).2) := by
  have h : ends (x.adapt g) s = ends (ExceptT.mk (Except.mapError g <$> x.run)) s := rfl
  rw [h]
  simp only [ends, ExceptT.run_mk, StateT.run_map]
  rfl

theorem ends_of_ends_adapt {g : Error → Error} {x : Step σ α} {a : α} {s s' : Session σ}
    (h : ends (x.adapt g) s = (.ok a, s')) : ends x s = (.ok a, s') := by
  rw [ends_adapt] at h
  rcases hx : ends x s with ⟨err | b, s₁⟩ <;> rw [hx] at h
  · cases (Prod.mk.inj h).1
  · obtain ⟨hb, rfl⟩ := Prod.mk.inj h
    cases hb
    rfl

/-- A step that does not end in an error comes to a value. -/
theorem exists_of_isOk {x : Step σ α} {s : Session σ} (h : (ends x s).1.isOk = true) :
    ∃ a s', ends x s = (.ok a, s') := by
  rcases hx : ends x s with ⟨err | a, s'⟩ <;> rw [hx] at h
  · cases h
  · exact ⟨a, s', rfl⟩

/-- A step that may come to nothing comes to something. -/
theorem exists_of_isSome {x : Step σ (Option α)} {s : Session σ} (h : (ends x s).1.toOption.join.isSome = true) :
    ∃ a s', ends x s = (.ok (some a), s') := by
  rcases hx : ends x s with ⟨err | _ | a, s'⟩ <;> rw [hx] at h
  · cases h
  · cases h
  · exact ⟨a, s', rfl⟩

end Step

/-! ## Lists of computations -/

/-- What comes out of a list of computations that all succeed is what one of them gives. -/
theorem exists_of_mem_mapM {ε α β : Type} {g : α → Except ε β} {xs : List α} {ys : List β} {y : β}
    (h : xs.mapM g = .ok ys) (hy : y ∈ ys) : ∃ x ∈ xs, g x = .ok y := by
  induction xs generalizing ys with
  | nil =>
    cases h
    cases hy
  | cons x xs ih =>
    rw [List.mapM_cons] at h
    cases hx : g x with
    | error err => simp [hx, bind, Except.bind] at h
    | ok z =>
      cases hxs : xs.mapM g with
      | error err => simp [hx, hxs, bind, Except.bind] at h
      | ok zs =>
        obtain rfl : z :: zs = ys := by simpa [hx, hxs, bind, Except.bind, pure, Except.pure] using h
        rcases List.mem_cons.1 hy with rfl | hy
        · exact ⟨x, List.mem_cons_self, hx⟩
        · obtain ⟨x', hmem, hx'⟩ := ih hxs hy
          exact ⟨x', List.mem_cons_of_mem x hmem, hx'⟩

/-- Where a list of computations succeeds, each of them does, and what it gives is among what comes out. -/
theorem exists_mem_of_mapM {ε α β : Type} {g : α → Except ε β} {xs : List α} {ys : List β} {x : α}
    (h : xs.mapM g = .ok ys) (hx : x ∈ xs) : ∃ y ∈ ys, g x = .ok y := by
  induction xs generalizing ys with
  | nil => cases hx
  | cons x' xs ih =>
    rw [List.mapM_cons] at h
    cases hx' : g x' with
    | error err => simp [hx', bind, Except.bind] at h
    | ok z =>
      cases hxs : xs.mapM g with
      | error err => simp [hx', hxs, bind, Except.bind] at h
      | ok zs =>
        obtain rfl : z :: zs = ys := by simpa [hx', hxs, bind, Except.bind, pure, Except.pure] using h
        rcases List.mem_cons.1 hx with rfl | hx
        · exact ⟨z, List.mem_cons_self, hx'⟩
        · obtain ⟨y, hmem, hy⟩ := ih hxs hx
          exact ⟨y, List.mem_cons_of_mem z hmem, hy⟩

/-- A list of computations fails as one of them does. -/
theorem exists_error_of_mapM {ε α β : Type} {g : α → Except ε β} {xs : List α} {err : ε}
    (h : xs.mapM g = .error err) : ∃ x ∈ xs, g x = .error err := by
  induction xs with
  | nil => cases h
  | cons x xs ih =>
    rw [List.mapM_cons] at h
    cases hx : g x with
    | error err' =>
      obtain rfl : err' = err := by simpa [hx, bind, Except.bind] using h
      exact ⟨x, List.mem_cons_self, hx⟩
    | ok y =>
      cases hxs : xs.mapM g with
      | error err' =>
        obtain rfl : err' = err := by simpa [hx, hxs, bind, Except.bind] using h
        obtain ⟨x', hmem, hx'⟩ := ih hxs
        exact ⟨x', List.mem_cons_of_mem x hmem, hx'⟩
      | ok ys => simp [hx, hxs, bind, Except.bind, pure, Except.pure] at h

end ImportClosure
