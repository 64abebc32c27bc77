import ImportClosure.Module.Record

/-!
# The registry

Roots, the entry, and who uses whom. The roots stand in a list, and the set of their identities beside it says which modules
are roots. The uses are the edges of a graph between numbered nodes, with an index that finds the node of an identity. The
list and its set, and the nodes and their index, move together. Everywhere the first registration wins: of roots with the
same identity, of uses with the same ends and tag, and of the keys that stand for an identity.
-/

namespace ImportClosure

/-- Why one module uses another. -/
inductive UsageTag where
  /-- An import statement. -/
  | statement
  /-- Needed by convention, declared by a plugin. -/
  | plugin
  deriving DecidableEq

/-- The word for a tag. -/
def UsageTag.text : UsageTag → String
  | .statement => "import"
  | .plugin => "plugin"

/-- One module uses another. -/
structure Use where
  user : ModuleKey
  used : ModuleKey
  tag : UsageTag
  reason : String
  sourceRef : Option SourceRef
  deriving DecidableEq

/-- An edge between two nodes of the usage graph, from the user to what it uses. -/
structure UsageEdge where
  source : Nat
  target : Nat
  tag : UsageTag
  reason : String
  sourceRef : Option SourceRef
  deriving DecidableEq

/-- Two edges are the same if they have the same ends and tag. -/
def UsageEdge.same (e f : UsageEdge) : Bool :=
  e.source == f.source && e.target == f.target && e.tag == f.tag

/-- The use that an edge stands for among these nodes. -/
def UsageEdge.use? (nodes : List ModuleKey) (e : UsageEdge) : Option Use := do
  let user ← nodes[e.source]?
  let used ← nodes[e.target]?
  return ⟨user, used, e.tag, e.reason, e.sourceRef⟩

/-- An index of nodes: it finds the number of a node by the identity of its key. -/
def Indexes (index : List (Identity × Nat)) (nodes : List ModuleKey) : Prop :=
  ∀ i n, index.lookup i = some n ↔ nodes[n]?.map ModuleKey.identity = some i

/-- One more node is the last one. -/
theorem identity_getElem?_concat (nodes : List ModuleKey) (k : ModuleKey) (i : Identity) (n : Nat) :
    (nodes ++ [k])[n]?.map ModuleKey.identity = some i ↔
      nodes[n]?.map ModuleKey.identity = some i ∨ n = nodes.length ∧ k.identity = i := by
  rcases Nat.lt_trichotomy n nodes.length with hn | rfl | hn
  · simp [List.getElem?_append_left hn, Nat.ne_of_lt hn]
  · simp
  · have hout : (nodes ++ [k])[n]? = none := List.getElem?_eq_none (by simpa using Nat.succ_le_of_lt hn)
    simp [hout, List.getElem?_eq_none (Nat.le_of_lt hn), Nat.ne_of_gt hn]

/-- A key that the index does not find may be the next node. -/
theorem Indexes.push {index : List (Identity × Nat)} {nodes : List ModuleKey} (h : Indexes index nodes) {k : ModuleKey}
    (hk : index.lookup k.identity = none) : Indexes ((k.identity, nodes.length) :: index) (nodes ++ [k]) := by
  intro i n
  rw [identity_getElem?_concat, ← h i n]
  by_cases hi : i = k.identity
  · subst hi
    simp [hk, eq_comm]
  · have hne : (i == k.identity) = false := by simpa using hi
    simp [List.lookup_cons, hne, Ne.symm hi]

/-- Who uses whom. -/
structure UsageGraph where
  /-- The keys of the nodes, in the order of their numbers. -/
  nodes : List ModuleKey
  /-- The numbers of the nodes. -/
  index : List (Identity × Nat)
  /-- The edges, newest first. -/
  edges : List UsageEdge
  indexed : Indexes index nodes
  within : ∀ e ∈ edges, e.source < nodes.length ∧ e.target < nodes.length

namespace UsageGraph

/-- A graph without nodes. -/
def empty : UsageGraph where
  nodes := []
  index := []
  edges := []
  indexed _ _ := by simp
  within _ h := nomatch h

/-- The number of the node of an identity. -/
def node? (g : UsageGraph) (identity : Identity) : Option Nat :=
  g.index.lookup identity

/-- A graph with one more node, for a key whose identity has none. -/
def addNode (g : UsageGraph) (k : ModuleKey) (h : g.node? k.identity = none) : UsageGraph where
  nodes := g.nodes ++ [k]
  index := (k.identity, g.nodes.length) :: g.index
  edges := g.edges
  indexed := g.indexed.push h
  within e he := by
    have := g.within e he
    simp only [List.length_append, List.length_singleton]
    omega

/-- The number of the node for the identity of a key, which is made if there is none. -/
def ensureNode (g : UsageGraph) (k : ModuleKey) : Nat × UsageGraph :=
  match h : g.node? k.identity with
  | some n => (n, g)
  | none => (g.nodes.length, g.addNode k h)

/-- A graph with an edge between nodes that it has. An edge that is known stays as it is. -/
def addEdge (g : UsageGraph) (e : UsageEdge) (h : e.source < g.nodes.length ∧ e.target < g.nodes.length) : UsageGraph :=
  if g.edges.any fun other => other.same e then g
  else { g with
    edges := e :: g.edges
    within := List.forall_mem_cons.2 ⟨h, g.within⟩ }

/-- Nodes stay. -/
theorem length_le_ensureNode (g : UsageGraph) (k : ModuleKey) :
    g.nodes.length ≤ (g.ensureNode k).2.nodes.length := by
  unfold ensureNode
  split
  · exact Nat.le_refl _
  · simp [addNode]

/-- The number that is given is one of a node. -/
theorem ensureNode_lt (g : UsageGraph) (k : ModuleKey) : (g.ensureNode k).1 < (g.ensureNode k).2.nodes.length := by
  unfold ensureNode
  split
  next n h =>
    have hn := (g.indexed _ _).1 h
    obtain ⟨_, hget, _⟩ := Option.map_eq_some_iff.1 hn
    exact (List.getElem?_eq_some_iff.1 hget).1
  next => simp [addNode]

/-- A graph with an edge between the nodes of two keys. -/
def connect (g : UsageGraph) (user used : ModuleKey) (tag : UsageTag) (reason : String) (at_ : Option SourceRef) :
    UsageGraph :=
  let source := g.ensureNode user
  let target := source.2.ensureNode used
  target.2.addEdge ⟨source.1, target.1, tag, reason, at_⟩
    ⟨Nat.lt_of_lt_of_le (g.ensureNode_lt user) (source.2.length_le_ensureNode used), source.2.ensureNode_lt used⟩

/-- The uses that the edges stand for, newest first. -/
def uses (g : UsageGraph) : List Use :=
  g.edges.filterMap (UsageEdge.use? g.nodes)

/-- The uses at the node of an identity, by the end of an edge that is to be there, newest first. -/
def usesAt (g : UsageGraph) (side : UsageEdge → Nat) (identity : Identity) : List Use :=
  match g.node? identity with
  | some n => (g.edges.filter fun e => side e == n).filterMap (UsageEdge.use? g.nodes)
  | none => []

end UsageGraph

/-- Roots and uses. -/
structure Registry (α : Type) [Handle α] where
  /-- The roots, oldest first. -/
  roots : List α
  /-- The identities of the roots. -/
  rootKeys : List Identity
  entry : Option α
  graph : UsageGraph
  rooted : ∀ i, i ∈ rootKeys ↔ i ∈ roots.map Handle.identity

namespace Registry

variable {α : Type} [Handle α]

/-- A registry in which nothing is registered. -/
def empty : Registry α where
  roots := []
  rootKeys := []
  entry := none
  graph := .empty
  rooted _ := Iff.rfl

/-- Whether the module of an identity is a root. -/
def isRoot (r : Registry α) (identity : Identity) : Bool :=
  r.rootKeys.contains identity

/-- Makes a module a root, unless one of its identity is. -/
def addRoot (r : Registry α) (m : α) : Registry α :=
  if r.isRoot (Handle.identity m) then r
  else { r with
    rootKeys := Handle.identity m :: r.rootKeys
    graph := (r.graph.ensureNode (Handle.key m)).2
    roots := r.roots ++ [m]
    rooted := fun i => by simp [r.rooted i, or_comm] }

/-- Makes a module a root, and tells whether it was none before. -/
def registerRoot (r : Registry α) (m : α) : Bool × Registry α :=
  (!r.isRoot (Handle.identity m), r.addRoot m)

/-- Makes a module the entry, which is a root as well. -/
def setEntry (r : Registry α) (m : α) : Registry α :=
  { r.addRoot m with entry := some m }

/-- The package that the entry runs in. -/
def entryPackage (r : Registry α) : Option ModuleName :=
  r.entry.bind fun m => (Handle.record m).runtimePackage

/-- Notes that a module is used. A use that is known stays as it is. -/
def addUse (r : Registry α) (used user : α) (tag : UsageTag) (reason : String) (at_ : Option SourceRef) :
    Registry α :=
  { r with graph := r.graph.connect (Handle.key user) (Handle.key used) tag reason at_ }

/-- All uses, newest first. -/
def uses (r : Registry α) : List Use :=
  r.graph.uses

/-- The uses of a module, newest first. -/
def usersOf (r : Registry α) (identity : Identity) : List Use :=
  r.graph.usesAt UsageEdge.target identity

/-- The uses that a module makes of others, newest first. -/
def usedBy (r : Registry α) (identity : Identity) : List Use :=
  r.graph.usesAt UsageEdge.source identity

/-- The number of uses. -/
def usageCount (r : Registry α) : Nat :=
  r.graph.edges.length

end Registry

end ImportClosure
