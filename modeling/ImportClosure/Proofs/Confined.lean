import ImportClosure.Proofs.Operations

/-!
# Sessions under a rule

A rule says what may happen in a session and what may be walked. If walking an item keeps to the rule and leaves only what
may be walked, and so do the modules that are queued, then every operation that is given nothing else is a run of what may
happen (`Operation.perform_within`), and what that keeps holds after any such operations (`Engine.Confines.after`).
-/

namespace ImportClosure

open Step

variable {σ : Type}

/-- An operation that is given only what may happen and what may be walked. -/
def Operation.Within (e : Engine σ) (allowed : Action → Prop) (walked : WalkItem → Prop) : Operation → Prop
  | addEntry path => allowed (.entered path)
  | walk item => walked item
  | seed includes base => ∀ item ∈ (seed includes base).items, walked item
  | consider m edges => ∀ a, Action.Follows e m (e.Asks m edges) a → allowed a
  | recurse r signalled => allowed (.recursed r signalled)
  | pass | run _ | decide _ => True

/-- In sessions that keep a property, all that is walked and all that is queued keeps to a rule. -/
structure Engine.Confines (e : Engine σ) (allowed : Action → Prop) (walked : WalkItem → Prop) (I : Session σ → Prop) :
    Prop where
  remembers : ∀ s, I s → e.Remembers s
  move : ∀ a s s', allowed a → Move e a s s' → I s → I s'
  quiet : ∀ a : Action, a.isQuiet = true → allowed a
  drained : allowed .drained
  expand : ∀ s item, I s → walked item →
    Leads e allowed (e.expand item) s fun children _ => ∀ child ∈ children, walked child
  pending : ∀ s, I s → ∀ m ∈ s.pending, ∀ a, Action.Follows e m.record (e.Asks m.record m.uses) a → allowed a

section Confined

variable {e : Engine σ} {allowed : Action → Prop} {walked : WalkItem → Prop} {I : Session σ → Prop} {s : Session σ}

namespace Engine

/-- A run of what may happen keeps the property. -/
theorem Confines.moves (hc : e.Confines allowed walked I) {s' : Session σ} (hm : Moves e allowed s s') (hs : I s) :
    I s' :=
  hm.keeps hc.move hs

/-- Walking a stack of what may be walked is a run of what may happen. -/
theorem walkStack_within (hc : e.Confines allowed walked I) (bound : Nat) {items : List WalkItem} (hs : I s)
    (hitems : ∀ item ∈ items, walked item) : Leads e allowed (e.walkStack bound items) s fun _ _ => True := by
  induction bound generalizing items s with
  | zero =>
    cases items with
    | nil => exact .pure trivial
    | cons item rest => exact .throw _
  | succ bound ih =>
    cases items with
    | nil => exact .pure trivial
    | cons item rest =>
      refine .bind (hc.expand s item hs (hitems item List.mem_cons_self)) fun children s₁ hm hchildren => ?_
      refine ih (hc.moves hm hs) fun child hmem => ?_
      rcases List.mem_append.1 hmem with hmem | hmem
      · exact hchildren child hmem
      · exact hitems child (List.mem_cons_of_mem item hmem)

/-- Walking what may be walked is a run of what may happen. -/
theorem walk_within (hc : e.Confines allowed walked I) (hs : I s) {item : WalkItem} (hitem : walked item) :
    Leads e allowed (e.walk item) s fun _ _ => True :=
  .bind (hc.expand s item hs hitem) fun _ _ hm hchildren => walkStack_within hc _ (hc.moves hm hs) hchildren

/-- A pass is a run of what may happen. -/
theorem runPass_within (hc : e.Confines allowed walked I) (hs : I s) :
    Leads e allowed e.runPass s fun _ _ => True :=
  runPass_leads (hc.remembers s hs) hc.drained fun a ⟨m, hm, ha⟩ => hc.pending s hs m hm a ha

/-- A run to the fixed point is a run of what may happen. -/
theorem runToFixedPoint_within (hc : e.Confines allowed walked I) (bound : Nat) (hs : I s) :
    Leads e allowed (e.runToFixedPoint bound) s fun _ _ => True :=
  runToFixedPoint_leads (fun _ _ hm hs => hc.moves hm hs) (fun _ hs => runPass_within hc hs) (hc.quiet _ rfl) bound hs

end Engine

/-- An operation that is given nothing else is a run of what may happen. -/
theorem Operation.perform_within (hc : e.Confines allowed walked I) {op : Operation} (hop : op.Within e allowed walked)
    (hs : I s) : Leads e allowed (op.perform e) s fun _ _ => True := by
  have hR := hc.remembers s hs
  cases op with
  | addEntry path =>
    have hx : Leads e allowed (e.addEntry path) s fun _ _ => True :=
      ⟨.single (.entered path) hop rfl, fun _ _ _ => trivial⟩
    exact .bind hx fun _ _ _ _ => .pure trivial
  | walk item => exact Engine.walk_within hc hs hop
  | seed includes base =>
    refine Engine.seedIncludes_leads_of_keeps (fun _ _ hm hs => hc.moves hm hs) hs (fun path hpath s hs => ?_)
      fun text htext s hs => ?_
    · exact Engine.walk_within hc hs (hop _ (List.mem_append_left _ (List.mem_map_of_mem hpath)))
    · exact Engine.walk_within hc hs (hop _ (List.mem_append_right _ (List.mem_map_of_mem htext)))
  | pass => exact .bind (Engine.runPass_within hc hs) fun _ _ _ _ => .pure trivial
  | run bound => exact .bind (Engine.runToFixedPoint_within hc bound hs) fun _ _ _ _ => .pure trivial
  | consider m edges => exact ((Engine.consider_leads hR).mono hop).weaken fun _ _ _ _ => trivial
  | recurse r signalled => exact .bind (Engine.recurse_leads hop) fun _ _ _ _ => .pure trivial
  | decide q => exact .bind (Engine.decide_leads hR (hc.quiet _ rfl)) fun _ _ _ _ => .pure trivial

/-- The property holds after such operations, whichever of them end in an error. -/
theorem Engine.Confines.after (hc : e.Confines allowed walked I) {ops : List Operation}
    (hops : ∀ op ∈ ops, op.Within e allowed walked) (hs : I s) : I (e.after ops s) := by
  induction ops generalizing s with
  | nil => exact hs
  | cons op ops ih =>
    have hm := (Operation.perform_within hc (hops op List.mem_cons_self) hs).1
    exact ih (fun op' hop => hops op' (List.mem_cons_of_mem op hop)) (hc.moves hm hs)

end Confined

end ImportClosure
