import ImportClosure.Python.Layout

/-!
# Trees

What has been read of a source is a tree of phrases and tokens. Where the source does not fit the grammar, the tree has
error nodes around what was passed over, and missing tokens where some were made up. Each such fault has a cost, which
grows with the text that was passed over.
-/

namespace ImportClosure.Python

/-- What a node of a tree stands for. -/
inductive Label where
  | token (number : Nat)
  | phrase (number : Nat)
  | error
  /-- Tokens passed over one after the other. -/
  | skipped
  deriving DecidableEq, Inhabited

/-- What there is to know of a node besides its children. -/
structure NodeInfo where
  label : Label
  /-- Where the gap in front of the node begins. -/
  before : Place
  start : Place
  stop : Place
  cost : Nat := 0
  /-- Whether the node stands for itself, and not only for its children. -/
  isShown : Bool := true
  /-- How many nodes it shows when it does not stand for itself, and how many are shown below it. -/
  shownChildren : Nat := 0
  shownBelow : Nat := 0
  weight : Int := 0
  /-- Whether it may stand anywhere and is no part of the phrase around it. -/
  isExtra : Bool := false
  isMissing : Bool := false
  isKeyword : Bool := false
  /-- The layout behind the last layout token, if there is one. -/
  layout : Option Layout := none
  changesLayout : Bool := false
  /-- Which of the children are shown in any case. -/
  marks : List Bool := []
  deriving Inhabited

inductive Tree where
  | node (info : NodeInfo) (children : List Tree)
  deriving Inhabited

namespace Tree

def info : Tree → NodeInfo
  | node info _ => info

def children : Tree → List Tree
  | node _ children => children

def label (t : Tree) : Label := t.info.label

def cost (t : Tree) : Nat := t.info.cost

def isExtra (t : Tree) : Bool := t.info.isExtra

/-- The tree as an addition that may stand anywhere, or as none. -/
def asExtra (isExtra : Bool) (t : Tree) : Tree := node { t.info with isExtra } t.children

/-! ## Costs -/

def recoveryCost : Nat := 500

def missingCost : Nat := 110

def skippedTreeCost : Nat := 100

/-- The cost of passing over the text between two places: one for each byte and 30 for each line break. -/
def spanCost (start stop : Place) : Nat := (stop.offset - start.offset) + 30 * (stop.line - start.line)

/-- The cost of a child as such, when its parent is an error. -/
def costInError (t : Tree) : Nat :=
  if t.isExtra || t.label == .error && t.children.isEmpty then 0
  else if t.info.isShown then skippedTreeCost
  else if t.children.isEmpty then 0
  else skippedTreeCost * t.info.shownChildren

/-! ## Construction -/

/-- A token that is missing at a place. -/
def missing (token : Nat) (isShown : Bool) (p : Place) : Tree :=
  node { label := .token token, before := p, start := p, stop := p, cost := missingCost + recoveryCost, isShown
         isMissing := true } []

/-- Each child with its mark. Extras have none. -/
def markChildren : List Bool → List Tree → List (Bool × Tree)
  | _, [] => []
  | marks, t :: ts =>
    if t.isExtra then (false, t) :: markChildren marks ts
    else (marks.headD false, t) :: markChildren marks.tail ts

/-- A node over its children. One without any lies at the given place. -/
def ofChildren (label : Label) (isShown : Bool) (marks : List Bool) (children : List Tree) (p : Place) : Tree :=
  let marked := markChildren marks children
  let isError := label == .error || label == .skipped
  let before := (children.head?.map (·.info.before)).getD p
  let start := (children.head?.map (·.info.start)).getD p
  let stop := (children.getLast?.map (·.info.stop)).getD p
  let sum (f : Bool × Tree → Nat) : Nat := marked.foldl (fun n t => n + f t) 0
  let inherited := sum fun (_, t) => if t.label == .skipped then 0 else t.cost
  let own := if isError then sum (fun (_, t) => t.costInError) + recoveryCost + spanCost start stop else 0
  let stands (marked : Bool × Tree) : Bool := marked.1 || marked.2.info.isShown
  node {
    label, before, start, stop, isShown, marks
    cost := inherited + own
    shownChildren := sum fun t => if stands t then 1 else if t.2.children.isEmpty then 0 else t.2.info.shownChildren
    shownBelow := sum fun t => t.2.info.shownBelow + (if stands t then 1 else 0)
    weight := children.foldl (fun w t => w + t.info.weight) 0
    layout := children.foldl (fun layout t => t.info.layout <|> layout) none
    changesLayout := children.any (·.info.changesLayout) } children

/-- The children without the extras at their end, and these extras. -/
def splitExtras (children : List Tree) : List Tree × List Tree :=
  let extras := children.reverse.takeWhile isExtra
  (children.take (children.length - extras.length), extras.reverse)

/-- How much a tree adds to what is shown. -/
def count (t : Tree) : Nat :=
  t.info.shownBelow + (if t.info.isShown then 1 else 0) + (if t.label == .skipped then 1 else 0)

/-! ## Comparison -/

/-- Whether two trees over the same text may stand for each other. -/
def isLike (s t : Tree) : Bool :=
  s.label == t.label && (0 < s.cost && 0 < t.cost ||
    s.info.before.offset == t.info.before.offset && s.info.start.offset == t.info.start.offset &&
    s.info.stop.offset == t.info.stop.offset && s.children.length == t.children.length &&
    s.isExtra == t.isExtra && s.info.layout == t.info.layout)

/-- The order of labels: tokens before phrases. -/
def labelNumber : Label → Nat × Nat
  | .token n => (0, n)
  | .phrase n => (1, n)
  | .skipped => (2, 0)
  | .error => (2, 1)

mutual

/-- Compares trees by the first node in which they differ: by its label and by the number of its children. -/
def compare : Tree → Tree → Ordering
  | node info children, t =>
    let (i, m) := labelNumber info.label
    let (j, n) := labelNumber t.label
    (Ord.compare i j).then <| (Ord.compare m n).then <|
      (Ord.compare children.length t.children.length).then (compareAll children t.children)

/-- Compares trees in pairs. -/
def compareAll : List Tree → List Tree → Ordering
  | s :: ss, t :: ts => (compare s t).then (compareAll ss ts)
  | _, _ => .eq

end

/-- Whether the second of two trees over the same text is to be preferred. -/
def prefers (s t : Tree) : Bool :=
  if t.cost != s.cost then t.cost < s.cost
  else if t.info.weight != s.info.weight then s.info.weight < t.info.weight
  else 0 < s.cost || compare s t == .gt

end Tree

end ImportClosure.Python
