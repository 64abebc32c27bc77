import ImportClosure.Proofs.Moves
import Mathlib.Data.List.Basic

/-!
# The registry, pair by pair

The nodes of the usage graph and their index move together, so an edge and its two nodes tell what the use is, and a number
and an identity find the same node (`UsageGraph.number_eq_iff`). Hence the uses at a node are those of all uses whose end
has the identity (`UsageGraph.usesAt_eq`). What is noted about the uses between two modules with one tag is all that can be
seen of them (`Registry.notes`): noting a use says something about its own pair, and only if nothing was said about it
(`Registry.notes_addUse`). Of the roots a module becomes the last one unless one has its identity
(`Registry.roots_addRoot`).
-/

namespace ImportClosure

/-- A key stands for an identity if the identity is its own. -/
theorem ModuleKey.isOf_iff (k : ModuleKey) (i : Identity) : k.isOf i = true ↔ k.identity = i := by
  cases i
  simp [isOf, identity]

/-- Whether a use connects two modules with a tag. -/
def Use.connects (u : Use) (i j : Identity) (tag : UsageTag) : Bool :=
  u.user.isOf i && u.used.isOf j && u.tag == tag

/-- A use connects what it says that it connects. -/
theorem Use.connects_iff {u : Use} {i j : Identity} {tag : UsageTag} :
    u.connects i j tag = true ↔ u.user.identity = i ∧ u.used.identity = j ∧ u.tag = tag := by
  simp only [connects, Bool.and_eq_true, ModuleKey.isOf_iff, beq_iff_eq, and_assoc]

/-! ## Edges and uses -/

/-- A use has the keys of the nodes that its edge connects, and all else from the edge. -/
theorem UsageEdge.use?_eq_some_iff {nodes : List ModuleKey} {e : UsageEdge} {u : Use} : e.use? nodes = some u ↔
    nodes[e.source]? = some u.user ∧ nodes[e.target]? = some u.used ∧ e.tag = u.tag ∧ e.reason = u.reason ∧
      e.sourceRef = u.sourceRef := by
  obtain ⟨user, used, tag, reason, at_⟩ := u
  cases hsource : nodes[e.source]? <;> cases htarget : nodes[e.target]? <;> simp [use?, hsource, htarget]

namespace UsageGraph

variable {g : UsageGraph} {i : Identity} {k user used : ModuleKey} {e : UsageEdge} {u : Use} {n m : Nat} {tag : UsageTag}
  {reason : String} {at_ : Option SourceRef}

/-- The number of a node is the one that its identity finds. -/
theorem number_eq_iff (hn : g.node? i = some n) (hk : g.nodes[m]? = some k) : m = n ↔ k.identity = i := by
  have hm : g.node? k.identity = some m := (g.indexed _ _).2 (by rw [hk, Option.map_some])
  constructor
  · rintro rfl
    have hi := (g.indexed _ _).1 hn
    rw [hk, Option.map_some] at hi
    exact Option.some.inj hi
  · rintro rfl
    exact Option.some.inj (hm.symm.trans hn)

/-- An identity has a node if a key stands for it. -/
theorem isSome_node?_iff : (g.node? i).isSome = true ↔ i ∈ g.nodes.map ModuleKey.identity := by
  rw [Option.isSome_iff_exists, List.mem_iff_getElem?]
  exact exists_congr fun n => by rw [node?, g.indexed, List.getElem?_map]

/-- Every edge stands for a use. -/
theorem exists_use_of_mem (he : e ∈ g.edges) : ∃ u, e.use? g.nodes = some u := by
  obtain ⟨hsource, htarget⟩ := g.within e he
  exact ⟨⟨g.nodes[e.source], g.nodes[e.target], e.tag, e.reason, e.sourceRef⟩, by
    simp [UsageEdge.use?, List.getElem?_eq_getElem hsource, List.getElem?_eq_getElem htarget]⟩

/-- There are as many uses as edges. -/
theorem length_uses (g : UsageGraph) : g.uses.length = g.edges.length := by
  refine List.filterMap_length_eq_length.2 fun e he => ?_
  obtain ⟨u, hu⟩ := exists_use_of_mem he
  rw [hu, Option.isSome_some]

/-- The uses at the node of an identity are those of all uses whose key at that end stands for it. -/
theorem usesAt_eq {side : UsageEdge → Nat} {key : Use → ModuleKey}
    (hside : ∀ e u, e.use? g.nodes = some u → g.nodes[side e]? = some (key u)) (i : Identity) :
    g.usesAt side i = g.uses.filter fun u => (key u).isOf i := by
  have hwrong : ∀ e ∈ g.edges, ∀ u, e.use? g.nodes = some u → g.node? i = none → (key u).isOf i = false := by
    intro e he u hu hnone
    rw [← Bool.not_eq_true, ModuleKey.isOf_iff]
    rintro rfl
    have hmem := List.mem_of_getElem? (hside e u hu)
    rw [← Option.not_isSome_iff_eq_none, isSome_node?_iff] at hnone
    exact hnone (List.mem_map_of_mem hmem)
  rw [uses, List.filter_filterMap, usesAt]
  cases hn : g.node? i with
  | none =>
    refine (List.filterMap_eq_nil_iff.2 fun e he => ?_).symm
    obtain ⟨u, hu⟩ := exists_use_of_mem he
    simp [hu, Option.filter, hwrong e he u hu hn]
  | some n =>
    dsimp only
    rw [List.filterMap_filter]
    refine List.filterMap_congr fun e he => ?_
    obtain ⟨u, hu⟩ := exists_use_of_mem he
    have hiff : side e = n ↔ (key u).isOf i = true := (number_eq_iff hn (hside e u hu)).trans (ModuleKey.isOf_iff _ _).symm
    rw [hu]
    by_cases heq : side e = n
    · simp [heq, Option.filter, hiff.1 heq]
    · simp [heq, Option.filter, Bool.eq_false_iff.2 fun hof => heq (hiff.2 hof)]

/-! ## Making nodes -/

/-- A node is made for a key only if none has its identity. -/
theorem nodes_ensureNode (g : UsageGraph) (k : ModuleKey) : (g.ensureNode k).2.nodes =
    if k.identity ∈ g.nodes.map ModuleKey.identity then g.nodes else g.nodes ++ [k] := by
  unfold ensureNode
  split
  next n h => rw [if_pos (isSome_node?_iff.1 (Option.isSome_iff_exists.2 ⟨n, h⟩))]
  next h =>
    rw [if_neg fun hmem => Option.isSome_iff_ne_none.1 (isSome_node?_iff.2 hmem) h]
    rfl

/-- Nodes keep their numbers. -/
theorem getElem?_ensureNode (k : ModuleKey) (h : n < g.nodes.length) : (g.ensureNode k).2.nodes[n]? = g.nodes[n]? := by
  rw [nodes_ensureNode]
  split
  · rfl
  · exact List.getElem?_append_left h

/-- To note a module adds no edge. -/
@[simp] theorem edges_ensureNode (g : UsageGraph) (k : ModuleKey) : (g.ensureNode k).2.edges = g.edges := by
  unfold ensureNode
  split <;> rfl

/-- The number that is given is the one of the node of the key's identity. -/
theorem node?_ensureNode (g : UsageGraph) (k : ModuleKey) :
    (g.ensureNode k).2.node? k.identity = some (g.ensureNode k).1 := by
  unfold ensureNode
  split
  next n h => exact h
  next h => exact List.lookup_cons_self

/-- What the index finds it finds when there are more nodes. -/
theorem node?_ensureNode_of_some (k : ModuleKey) (h : g.node? i = some n) : (g.ensureNode k).2.node? i = some n := by
  obtain ⟨key, hkey, hid⟩ := Option.map_eq_some_iff.1 ((g.indexed _ _).1 h)
  obtain ⟨hlt, _⟩ := List.getElem?_eq_some_iff.1 hkey
  refine ((g.ensureNode k).2.indexed _ _).2 ?_
  rw [getElem?_ensureNode k hlt, hkey, Option.map_some, hid]

/-- Edges stand for the same uses when there are more nodes. -/
@[simp] theorem uses_ensureNode (g : UsageGraph) (k : ModuleKey) : (g.ensureNode k).2.uses = g.uses := by
  rw [uses, uses, edges_ensureNode]
  refine List.filterMap_congr fun e he => ?_
  obtain ⟨hsource, htarget⟩ := g.within e he
  rw [UsageEdge.use?, UsageEdge.use?, getElem?_ensureNode k hsource, getElem?_ensureNode k htarget]

/-! ## Connecting -/

/-- An edge is known if its use is. -/
theorem any_same_iff (hu : e.use? g.nodes = some u) : (g.edges.any fun other => other.same e) = true ↔
    (g.uses.any fun v => v.connects u.user.identity u.used.identity u.tag) = true := by
  obtain ⟨hsource, htarget, htag, _, _⟩ := UsageEdge.use?_eq_some_iff.1 hu
  have hnumber : ∀ {n k}, g.nodes[n]? = some k → g.node? k.identity = some n := fun h =>
    (g.indexed _ _).2 (by rw [h, Option.map_some])
  have hsame : ∀ (f : UsageEdge) (v : Use), f.use? g.nodes = some v →
      (f.same e = true ↔ v.connects u.user.identity u.used.identity u.tag = true) := by
    intro f v hv
    obtain ⟨hsource', htarget', htag', _, _⟩ := UsageEdge.use?_eq_some_iff.1 hv
    rw [Use.connects_iff, ← number_eq_iff (hnumber hsource) hsource', ← number_eq_iff (hnumber htarget) htarget', ← htag,
      ← htag', UsageEdge.same, Bool.and_eq_true, Bool.and_eq_true, beq_iff_eq, beq_iff_eq, beq_iff_eq, and_assoc]
  rw [List.any_eq_true, List.any_eq_true]
  constructor
  · rintro ⟨f, hf, hs⟩
    obtain ⟨v, hv⟩ := exists_use_of_mem hf
    exact ⟨v, List.mem_filterMap.2 ⟨f, hf, hv⟩, (hsame f v hv).1 hs⟩
  · rintro ⟨v, hv, hs⟩
    obtain ⟨f, hf, hv⟩ := List.mem_filterMap.1 hv
    exact ⟨f, hf, (hsame f v hv).2 hs⟩

/-- A known edge changes nothing, a new one stands for one more use. -/
theorem uses_addEdge (h : e.source < g.nodes.length ∧ e.target < g.nodes.length) (hu : e.use? g.nodes = some u) :
    (g.addEdge e h).uses =
      if g.uses.any fun v => v.connects u.user.identity u.used.identity u.tag then g.uses else u :: g.uses := by
  unfold addEdge
  rw [← if_congr (any_same_iff hu) rfl rfl]
  split
  · rfl
  · exact List.filterMap_cons_some hu

/-- Both keys of a use have their nodes, the one of the user first. -/
theorem nodes_connect : (g.connect user used tag reason at_).nodes = ((g.ensureNode user).2.ensureNode used).2.nodes := by
  unfold connect addEdge
  dsimp only
  split <;> rfl

/-- A use is noted between the nodes of its ends, unless one with the same ends and tag was noted before. -/
theorem uses_connect (g : UsageGraph) (user used : ModuleKey) (tag : UsageTag) (reason : String) (at_ : Option SourceRef) :
    ∃ u : Use, u.user ∈ (g.connect user used tag reason at_).nodes ∧ u.user.identity = user.identity ∧
      u.used ∈ (g.connect user used tag reason at_).nodes ∧ u.used.identity = used.identity ∧ u.tag = tag ∧
      u.reason = reason ∧ u.sourceRef = at_ ∧ (g.connect user used tag reason at_).uses =
        if g.uses.any fun v => v.connects user.identity used.identity tag then g.uses else u :: g.uses := by
  have hsource := node?_ensureNode_of_some used (node?_ensureNode g user)
  have htarget := node?_ensureNode (g.ensureNode user).2 used
  obtain ⟨key, hkey, hid⟩ := Option.map_eq_some_iff.1 ((UsageGraph.indexed _ _ _).1 hsource)
  obtain ⟨key', hkey', hid'⟩ := Option.map_eq_some_iff.1 ((UsageGraph.indexed _ _ _).1 htarget)
  let u : Use := ⟨key, key', tag, reason, at_⟩
  refine ⟨u, ?_, hid, ?_, hid', rfl, rfl, rfl, ?_⟩
  · rw [nodes_connect]
    exact List.mem_of_getElem? hkey
  · rw [nodes_connect]
    exact List.mem_of_getElem? hkey'
  · unfold connect
    rw [uses_addEdge (u := u) _ ?_, uses_ensureNode, uses_ensureNode, hid, hid']
    exact UsageEdge.use?_eq_some_iff.2 ⟨hkey, hkey', rfl, rfl, rfl⟩

end UsageGraph

namespace Registry

variable {α : Type} [Handle α]

/-! ## What is left alone -/

section Handles

variable {r : Registry α} {m used user : α} {tag : UsageTag} {reason : String} {at_ : Option SourceRef}

/-- The set of identities says which modules are roots. -/
theorem isRoot_iff_mem {i : Identity} : r.isRoot i = true ↔ i ∈ r.roots.map Handle.identity := by
  rw [isRoot, List.contains_iff_mem, r.rooted]

/-- To look for the identity among the roots comes to the same. -/
theorem isRoot_eq_any (r : Registry α) (i : Identity) : r.isRoot i = r.roots.any fun m => Handle.isOf m i := by
  rw [Bool.eq_iff_iff, isRoot_iff_mem]
  simp [Handle.isOf_eq]

/-- A module is put behind the other roots, unless it is one. -/
theorem roots_addRoot_eq (r : Registry α) (m : α) :
    (r.addRoot m).roots = if r.isRoot (Handle.identity m) then r.roots else r.roots ++ [m] := by
  unfold addRoot
  split <;> rfl

@[simp] theorem roots_addUse : (r.addUse used user tag reason at_).roots = r.roots := rfl

@[simp] theorem entry_addUse : (r.addUse used user tag reason at_).entry = r.entry := rfl

@[simp] theorem uses_addRoot : (r.addRoot m).uses = r.uses := by
  unfold addRoot
  split
  · rfl
  · exact UsageGraph.uses_ensureNode _ _

@[simp] theorem entry_addRoot : (r.addRoot m).entry = r.entry := by
  unfold addRoot
  split <;> rfl

@[simp] theorem uses_setEntry : (r.setEntry m).uses = r.uses :=
  uses_addRoot

@[simp] theorem entry_setEntry : (r.setEntry m).entry = some m := rfl

end Handles

/-! ## What is noted -/

variable {r : Registry ModuleRecord} {m : ModuleRecord} {i j : Identity} {tag : UsageTag}

/-- The uses that connect two modules with a tag, newest first. -/
def between (r : Registry ModuleRecord) (i j : Identity) (tag : UsageTag) : List Use :=
  r.uses.filter fun u => u.connects i j tag

/-- What is noted about the uses that connect two modules with a tag: the reason and the line of each. -/
def notes (r : Registry ModuleRecord) (i j : Identity) (tag : UsageTag) : List (String × Option SourceRef) :=
  (r.between i j tag).map fun u => (u.reason, u.sourceRef)

/-- One module uses another. -/
def Uses (r : Registry ModuleRecord) (i j : Identity) : Prop :=
  ∃ u ∈ r.uses, u.user.identity = i ∧ u.used.identity = j

/-- The uses between two modules are those that start from the one and lead to the other. -/
theorem mem_between {u : Use} : u ∈ r.between i j tag ↔
    u ∈ r.uses ∧ u.user.identity = i ∧ u.used.identity = j ∧ u.tag = tag := by
  rw [between, List.mem_filter, Use.connects_iff]

theorem notes_eq_nil : r.notes i j tag = [] ↔ r.between i j tag = [] :=
  List.map_eq_nil_iff

/-- What is noted is read off the uses. -/
theorem notes_congr {r' : Registry ModuleRecord} (h : r'.uses = r.uses) : r'.notes i j tag = r.notes i j tag := by
  unfold notes between
  rw [h]

/-! ## Uses -/

section AddUse

variable {used user : ModuleRecord} {reason : String} {at_ : Option SourceRef}

variable (r used user tag reason at_) in
/-- A use is noted as it is, unless one with the same ends and tag was noted before. -/
theorem uses_addUse : ∃ u : Use, u.user.identity = user.identity ∧ u.used.identity = used.identity ∧ u.tag = tag ∧
    u.reason = reason ∧ u.sourceRef = at_ ∧
      (r.addUse used user tag reason at_).uses =
        if r.between user.identity used.identity tag = [] then u :: r.uses else r.uses := by
  obtain ⟨u, _, huser, _, hused, htag, hreason, hat, huses⟩ := r.graph.uses_connect user.key used.key tag reason at_
  refine ⟨u, huser, hused, htag, hreason, hat, huses.trans ?_⟩
  have hknown : (r.uses.any fun v => v.connects user.identity used.identity tag) = true ↔
      ¬ r.between user.identity used.identity tag = [] := by
    rw [between, List.filter_eq_nil_iff, List.any_eq_true]
    simp
  by_cases h : r.between user.identity used.identity tag = []
  · rw [if_pos h]
    exact if_neg fun hn => hknown.1 hn h
  · rw [if_neg h]
    exact if_pos (hknown.2 h)

/-- Noting a use says something about its own pair and tag, and only if nothing was said before. -/
theorem notes_addUse : (r.addUse used user tag reason at_).notes i j t =
    if (i = user.identity ∧ j = used.identity ∧ t = tag) ∧ r.notes i j t = [] then [(reason, at_)]
    else r.notes i j t := by
  obtain ⟨u, huser, hused, htag, hreason, hat, huses⟩ :=
    uses_addUse r tag used user reason at_
  have hconnects : u.connects i j t = true ↔ i = user.identity ∧ j = used.identity ∧ t = tag := by
    rw [Use.connects_iff, huser, hused, htag]
    constructor <;> rintro ⟨rfl, rfl, rfl⟩ <;> exact ⟨rfl, rfl, rfl⟩
  by_cases hp : i = user.identity ∧ j = used.identity ∧ t = tag
  · have hu := hconnects.2 hp
    obtain ⟨rfl, rfl, rfl⟩ := hp
    by_cases h : r.between user.identity used.identity t = []
    · rw [if_pos ⟨⟨rfl, rfl, rfl⟩, notes_eq_nil.2 h⟩, notes, between, huses, if_pos h, List.filter_cons, if_pos hu]
      rw [between] at h
      rw [h, List.map_singleton, hreason, hat]
    · rw [if_neg fun hn => h (notes_eq_nil.1 hn.2), notes, between, huses, if_neg h]
      rfl
  · rw [if_neg fun hn => hp hn.1, notes, between, huses]
    split
    · rw [List.filter_cons, if_neg fun hu => hp (hconnects.1 hu)]
      rfl
    · rfl

/-- A module uses another now if it did before or if this use is noted. -/
theorem uses_addUse_iff : (r.addUse used user tag reason at_).Uses i j ↔
    r.Uses i j ∨ i = user.identity ∧ j = used.identity := by
  obtain ⟨u, huser, hused, _, _, _, huses⟩ :=
    uses_addUse r tag used user reason at_
  unfold Uses
  rw [huses]
  split
  next hnil =>
    rw [← huser, ← hused]
    simp only [List.mem_cons, exists_eq_or_imp]
    rw [or_comm, eq_comm (a := i), eq_comm (a := j)]
  next hne =>
    refine ⟨Or.inl, ?_⟩
    rintro (h | ⟨rfl, rfl⟩)
    · exact h
    · obtain ⟨v, hv⟩ := List.exists_mem_of_ne_nil _ hne
      obtain ⟨hv, hi, hj, _⟩ := mem_between.1 hv
      exact ⟨v, hv, hi, hj⟩

end AddUse

/-! ## Roots -/

/-- An identity is a root if a root has it. -/
theorem isRoot_iff : r.isRoot i = true ↔ ∃ m ∈ r.roots, m.identity = i := by
  rw [isRoot_iff_mem, List.mem_map]
  rfl

/-- A module becomes the last root unless a root has its identity. -/
theorem roots_addRoot : (r.addRoot m).roots = if r.isRoot m.identity then r.roots else r.roots ++ [m] :=
  roots_addRoot_eq r m

end Registry

/-! ## Steps -/

variable {σ : Type} {e : Engine σ} {s s' : Session σ}

/-- Asking for a module leaves the registry alone. -/
theorem Recursed.registry_eq {r : RecursionRequest} {signalled : Bool} {result : Except Error (Option ModuleRecord)}
    (h : Recursed e r signalled s result s') : s'.registry = s.registry := by
  cases h <;> rfl

/-- Asking for a module decides nothing. -/
theorem Recursed.decisions_eq {r : RecursionRequest} {signalled : Bool} {result : Except Error (Option ModuleRecord)}
    (h : Recursed e r signalled s result s') : s'.decisions = s.decisions := by
  cases h <;> rfl

/-- The registry changes only if an entry is built, which it then holds. -/
theorem Entered.registry_eq {path : Path} {result : Except Error ModuleRecord} (h : Entered e path s result s') :
    s'.registry = match result with
      | .ok m => s.registry.setEntry m
      | .error _ => s.registry := by
  cases h <;> rfl

/-- Whether an action leaves the registry alone. -/
def Action.sparesRegistry : Action → Bool
  | rooted _ | used .. | entered _ => false
  | _ => true

/-- What spares the registry leaves it as it is. -/
theorem Move.registry_eq {a : Action} (h : Move e a s s') (ha : a.sparesRegistry = true) :
    s'.registry = s.registry := by
  cases a with
  | remarked =>
    obtain ⟨_, _, _, rfl⟩ := h
    rfl
  | decided q =>
    rcases e.ends_decide q s with ⟨d, _, hq⟩ | ⟨_, events, hq⟩
    · obtain rfl : s' = s := h.trans (congrArg Prod.snd hq)
      rfl
    · obtain rfl := h.trans (congrArg Prod.snd hq)
      rfl
  | recursed r signalled =>
    obtain ⟨_, hc⟩ := h.recursed
    exact hc.registry_eq
  | fetched r =>
    obtain ⟨_, _, hc, ⟨_, rfl⟩ | ⟨_, _, rfl⟩⟩ := h.fetched <;> exact hc.registry_eq
  | drained =>
    cases h
    rfl
  | _ => cases ha

/-- Only building an entry changes which module is the entry. -/
theorem Move.entry_eq {a : Action} (h : Move e a s s') (ha : ∀ path, a ≠ .entered path) :
    s'.registry.entry = s.registry.entry := by
  cases a with
  | rooted m =>
    obtain ⟨_, rfl⟩ := h
    exact Registry.entry_addRoot
  | used =>
    cases h
    exact Registry.entry_addUse
  | entered path => exact absurd rfl (ha path)
  | _ => rw [h.registry_eq rfl]

/-- Whether an action makes no module a root. -/
def Action.sparesRoots : Action → Bool
  | rooted _ | entered _ => false
  | _ => true

/-- What spares the roots leaves them as they are. -/
theorem Move.roots_eq {a : Action} (h : Move e a s s') (ha : a.sparesRoots = true) :
    s'.registry.roots = s.registry.roots := by
  cases a with
  | used =>
    cases h
    exact Registry.roots_addUse
  | rooted | entered => cases ha
  | _ => rw [h.registry_eq rfl]

/-- All roots are modules that are kept. -/
def Session.KeepsRoots (s : Session σ) : Prop :=
  ∀ m ∈ s.registry.roots, s.cache.find? m.identity = some m

/-- What becomes a root is kept, and stays kept. -/
theorem Session.KeepsRoots.move (h : s.KeepsRoots) {a : Action} (hm : Move e a s s') : s'.KeepsRoots := by
  have hadd : ∀ m, s'.cache.find? m.identity = some m → s'.registry.roots = (s.registry.addRoot m).roots →
      s'.KeepsRoots := by
    intro m hk hroots n hn
    rw [hroots, Registry.roots_addRoot] at hn
    split at hn
    · exact hm.find?_mono (h n hn)
    · rcases List.mem_append.1 hn with hn | hn
      · exact hm.find?_mono (h n hn)
      · rwa [List.mem_singleton.1 hn]
  cases a with
  | rooted m => exact hadd m (hm.find?_mono hm.1) (congrArg (fun s => s.registry.roots) hm.2)
  | entered path =>
    obtain ⟨result, hc⟩ := hm.entered
    cases hc with
    | failed => exact h
    | built =>
      refine hadd _ ?_ rfl
      rw [Cache.identity_add]
      exact Cache.find?_add_self
  | _ =>
    intro n hn
    rw [hm.roots_eq rfl] at hn
    exact hm.find?_mono (h n hn)

end ImportClosure
