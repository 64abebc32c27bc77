import ImportClosure.Python.Tree

/-!
# Stacks

What a parser has read and not yet put together lies on a stack, with the state of the parser behind each tree. Where
ways of reading a text meet again in the same state, their stacks share what lies on top: a stack can lie on several
others.
-/

namespace ImportClosure.Python

/-- A stack with its top state, by what lies below it. A stack keeps its number when more is put below it. -/
inductive Stack where
  | node (number : Nat) (state : Nat) (place : Place) (cost : Nat) (count : Nat) (weight : Int) (height : Nat)
    (links : List (Stack × Option Tree))
  deriving Inhabited

/-- What lies below a stack: another stack and the tree between the two, if there is one. -/
abbrev Link := Stack × Option Tree

namespace Stack

def number : Stack → Nat
  | node n .. => n

/-- The state of the parser on top. -/
def state : Stack → Nat
  | node _ s .. => s

/-- The place behind what has been read. -/
def place : Stack → Place
  | node _ _ p .. => p

/-- The cost of all faults below. -/
def cost : Stack → Nat
  | node _ _ _ c .. => c

/-- How much has been read. -/
def count : Stack → Nat
  | node _ _ _ _ n .. => n

def weight : Stack → Int
  | node _ _ _ _ _ w .. => w

/-- The number of links on the longest way to the bottom. -/
def height : Stack → Nat
  | node _ _ _ _ _ _ h _ => h

def links : Stack → List Link
  | node _ _ _ _ _ _ _ ls => ls

def countOf (tree : Option Tree) : Nat := (tree.map Tree.count).getD 0

def weightOf (tree : Option Tree) : Int := (tree.map (·.info.weight)).getD 0

/-- The stack at the begin of a text. -/
def bottom (state : Nat) (p : Place) : Stack := node 0 state p 0 0 0 0 []

/-- Puts a tree on a stack, or a break without a tree. -/
def push (below : Stack) (number : Nat) (tree : Option Tree) (state : Nat) : Stack :=
  node number state ((tree.map (·.info.stop)).getD below.place) (below.cost + (tree.map Tree.cost).getD 0)
    (below.count + countOf tree) (below.weight + weightOf tree) (below.height + 1) [(below, tree)]

/-- Changes the links of a stack, the weight and the count of its best way down. -/
def withLinks (s : Stack) (links : List Link) (count : Nat) (weight : Int) : Stack :=
  node s.number s.state s.place s.cost count weight (links.foldl (fun h l => max h (l.1.height + 1)) 0) links

/-- Whether trees of two links may stand for each other. -/
def likeTrees : Option Tree → Option Tree → Bool
  | none, none => true
  | some s, some t => s.isLike t
  | _, _ => false

def linkLimit : Nat := 8

/-- Puts a stack with a tree below another one too. If there is a like tree already, the stacks below the two become
one; of two like trees on one stack the weightier is kept. -/
def addLink : Nat → Stack → Link → Stack
  | 0, s, _ => s
  | fuel + 1, s, (below, tree) =>
    let weight := below.weight + weightOf tree
    let isKnown (l : Link) : Bool := likeTrees l.2 tree &&
      (l.1.number == below.number ||
        l.1.state == below.state && l.1.place.offset == below.place.offset && l.1.cost == below.cost)
    if s.number = below.number then s
    else
      match s.links.findIdx? isKnown with
      | some i =>
        let (known, knownTree) := s.links.getD i (below, tree)
        if known.number = below.number then
          if weightOf knownTree < weightOf tree then s.withLinks (s.links.set i (known, tree)) s.count weight else s
        else
          let joined := below.links.foldl (addLink fuel) known
          s.withLinks (s.links.set i (joined, knownTree)) s.count (max s.weight weight)
      | none =>
        if s.links.length = linkLimit then s
        else
          s.withLinks (s.links ++ [(below, tree)]) (max s.count (below.count + countOf tree)) (max s.weight weight)

/-- A stack that lies on all that two stacks lie on. -/
def join (s t : Stack) : Stack := t.links.foldl (addLink (t.height + 1)) s

/-! ## Ways down -/

/-- A way down a stack: where it has come to, the trees on it, and how many of them are no extras. -/
structure Path where
  stack : Stack
  trees : List Tree
  depth : Nat

/-- The way one link further. -/
def Path.follow (p : Path) (l : Link) : Path :=
  match l with
  | (below, some tree) => ⟨below, tree :: p.trees, if tree.isExtra then p.depth else p.depth + 1⟩
  | (below, none) => ⟨below, p.trees, p.depth + 1⟩

def pathLimit : Nat := 64

/-- Goes one link further on each way that does not stop. Of the ways that part here, the one along the first link
takes the place of the way so far, and the others come behind all ways. -/
def stepPaths {σ : Type} (visit : σ → Path → σ × Bool) (paths : List Path) (s : σ) : List Path × σ :=
  let (s, kept, added, _) := paths.foldl (fun (s, kept, added, count) p =>
    let (s, stops) := visit s p
    match p.stack.links with
    | first :: others =>
      if stops then (s, kept, added, count - 1)
      else
        let room := others.take (pathLimit - count)
        (s, p.follow first :: kept, (room.map p.follow).reverse ++ added, count + room.length)
    | [] => (s, kept, added, count - 1)) (s, [], [], paths.length)
  (kept.reverse ++ added.reverse, s)

/-- Visits all ways down, those that are equally long after one another. A visit may stop its way. -/
def walk {σ : Type} (visit : σ → Path → σ × Bool) : Nat → List Path → σ → σ
  | 0, _, s => s
  | _, [], s => s
  | fuel + 1, paths, s =>
    let (paths, s) := stepPaths visit paths s
    walk visit fuel paths s

/-- The ways down on which as many trees lie as given, extras not counted. -/
def pathsOf (s : Stack) (depth : Nat) : List Path :=
  (walk (fun (found : List Path) p => if p.depth = depth then (p :: found, true) else (found, false)) (s.height + 1)
    [⟨s, [], 0⟩] []).reverse

/-- The ways to the bottom. -/
def pathsToBottom (s : Stack) : List Path :=
  (walk (fun (found : List Path) p => (if p.stack.links.isEmpty then p :: found else found, false)) (s.height + 1)
    [⟨s, [], 0⟩] []).reverse

/-- Ways in groups that end on the same stack. -/
def groupPaths (paths : List Path) : List (Stack × List (List Tree)) :=
  paths.foldl (fun groups p =>
    match groups.findIdx? fun (g : Stack × List (List Tree)) => g.1.number == p.stack.number with
    | some i => groups.modify i fun (s, trees) => (s, trees ++ [p.trees])
    | none => groups ++ [(p.stack, [p.trees])]) []

end Stack

end ImportClosure.Python
