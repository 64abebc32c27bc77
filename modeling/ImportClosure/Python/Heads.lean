import ImportClosure.Parsing.Tables
import ImportClosure.Python.Stack

/-!
# Heads

A text can be read in several ways at once. Each of them is a head: a stack with what else a parser has to know there.
Heads are kept in an order, the better ones first. Heads that have come to the same state at the same place are joined.
-/

namespace ImportClosure.Python

open Parsing (Action State Tables)

/-- A place on the stack where reading could go on: how far down it lies and what the state was. -/
structure Waypoint where
  place : Place
  depth : Nat
  state : Nat

/-- How a head stands. -/
inductive Status where
  | active
  /-- No way to go on with a token. -/
  | paused (ahead : Tree)
  | halted

structure Head where
  stack : Stack
  /-- The layout behind the last layout token. -/
  layout : Option Layout := none
  /-- How much had been read at the last fault. -/
  countAtFault : Nat := 0
  status : Status := .active
  /-- Where reading could go on after a fault. -/
  waypoints : Option (List Waypoint) := none
  deriving Inhabited

namespace Head

def isActive (h : Head) : Bool :=
  match h.status with
  | .active => true
  | _ => false

def isPaused (h : Head) : Bool :=
  match h.status with
  | .paused _ => true
  | _ => false

def isHalted (h : Head) : Bool :=
  match h.status with
  | .halted => true
  | _ => false

def state (h : Head) : Nat := h.stack.state

def place (h : Head) : Place := h.stack.place

/-- The cost of all faults so far, with the one that is just met. -/
def cost (h : Head) : Nat :=
  let atFault := h.state == 0 && (h.stack.links.head?.map (·.2.isNone)).getD false
  h.stack.cost + if h.isPaused || atFault then Tree.recoveryCost else 0

/-- How much has been read since the last fault. -/
def countSinceFault (h : Head) : Nat := h.stack.count - h.countAtFault

/-- The head with what has been read counted anew if less is left than there was at the last fault. -/
def recount (h : Head) : Head := { h with countAtFault := min h.countAtFault h.stack.count }

def canJoin (h k : Head) : Bool :=
  h.isActive && k.isActive && h.state == k.state && h.place.offset == k.place.offset &&
    h.stack.cost == k.stack.cost && h.layout == k.layout

/-- A head that has been read in both ways. -/
def join (h k : Head) : Head :=
  let stack := h.stack.join k.stack
  { h with stack, countAtFault := if h.state = 0 then stack.count else h.countAtFault }

/-- The head for another stack on the way of a head. -/
def withStack (h : Head) (stack : Stack) : Head := { h with stack, status := .active, waypoints := none }

/-- Whether text has been read without a fault since the last one. -/
def hasAdvanced (h : Head) : Bool := h.stack.cost == 0 || search (h.stack.height + 1) h.stack
where
  search : Nat → Stack → Bool
    | 0, _ => false
    | fuel + 1, s =>
      match s.links with
      | (below, some tree) :: _ =>
        tree.info.before.offset < tree.info.stop.offset ||
          h.countAtFault < s.count && tree.cost == 0 && search fuel below
      | _ => false

end Head

/-! ## Comparison -/

/-- What heads are compared by. -/
structure Standing where
  cost : Nat
  countSinceFault : Nat
  weight : Int
  /-- Whether the head is at a fault. -/
  isFaulty : Bool

def Head.standing (h : Head) : Standing :=
  { cost := h.cost + if h.isPaused then Tree.skippedTreeCost else 0
    countSinceFault := h.countSinceFault
    weight := h.stack.weight
    isFaulty := h.isPaused || h.state == 0 }

/-- Which of two heads is better, and whether the other one is not worth to go on with. -/
inductive Preference where
  | takeFirst
  | preferFirst
  | either
  | preferSecond
  | takeSecond
  deriving DecidableEq

/-- The largest difference of costs, times what has been read since, at which the dearer head is kept. -/
def maxCostDifference : Nat := 1800

/-- Compares heads: first one at a fault with one that is not, then by cost, then by weight. -/
def Standing.compare (a b : Standing) : Preference :=
  if !a.isFaulty && b.isFaulty then if a.cost < b.cost then .takeFirst else .preferFirst
  else if a.isFaulty && !b.isFaulty then if b.cost < a.cost then .takeSecond else .preferSecond
  else if a.cost < b.cost then
    if maxCostDifference < (b.cost - a.cost) * (1 + a.countSinceFault) then .takeFirst else .preferFirst
  else if b.cost < a.cost then
    if maxCostDifference < (a.cost - b.cost) * (1 + b.countSinceFault) then .takeSecond else .preferSecond
  else if b.weight < a.weight then .preferFirst
  else if a.weight < b.weight then .preferSecond
  else .either

/-! ## Parses -/

/-- A parse under way. -/
structure Parse where
  heads : Array Head
  /-- The best tree for the whole text so far, and how many there were. -/
  finished : Option Tree := none
  finishedCount : Nat := 0
  /-- The number of the next stack. -/
  nextNumber : Nat := 1

/-- Steps of a parse by some tables. -/
abbrev ParseM := ReaderT Tables (StateM Parse)

namespace ParseM

def headLimit : Nat := 6

def head (v : Nat) : ParseM Head := return (← get).heads.getD v default

def headCount : ParseM Nat := return (← get).heads.size

def modifyHead (v : Nat) (f : Head → Head) : ParseM Unit :=
  modify fun p => { p with heads := p.heads.modify v f }

def addHead (h : Head) : ParseM Unit :=
  modify fun p => { p with heads := p.heads.push h }

def removeHead (v : Nat) : ParseM Unit :=
  modify fun p => { p with heads := p.heads.eraseIdxIfInBounds v }

def halt (v : Nat) : ParseM Unit := modifyHead v ({ · with status := .halted })

/-- Puts a later head in the place of another one. -/
def moveHead (source target : Nat) : ParseM Unit := do
  if source ≠ target then
    let h ← head source
    modifyHead target fun old => { h with waypoints := h.waypoints <|> old.waypoints }
    removeHead source

/-- Joins a head to another one if that is possible. -/
def joinHeads (target source : Nat) : ParseM Bool := do
  let h ← head target
  let k ← head source
  if h.canJoin k then
    modifyHead target (·.join k)
    removeHead source
    return true
  else return false

/-- Joins a head to the first of the given ones that allows it. -/
def joinToFirst (targets : List Nat) (source : Nat) : ParseM Bool :=
  match targets with
  | [] => return false
  | target :: rest => do
    if ← joinHeads target source then return true else joinToFirst rest source

/-- Puts a tree on the stack of a head, or a break at a fault. -/
def push (v : Nat) (tree : Option Tree) (state : Nat) : ParseM Unit := do
  let number := (← get).nextNumber
  modify fun p => { p with nextNumber := number + 1 }
  modifyHead v fun h =>
    let stack := h.stack.push number tree state
    { h with stack, countAtFault := if tree.isNone then stack.count else h.countAtFault }

/-- Takes trees off the stack of a head, extras not counted. There is a new head for each stack that this leads to. -/
def pop (v : Nat) (depth : Nat) : ParseM (List (Nat × List (List Tree))) := do
  let h ← head v
  let first ← headCount
  let groups := Stack.groupPaths (h.stack.pathsOf depth)
  for (stack, _) in groups do addHead (h.withStack stack)
  return groups.zipIdx.map fun ((_, ways), i) => (first + i, ways)

/-- Takes an error off the top of the stack of a head, if there is one. -/
def popError (v : Nat) : ParseM (Option Tree) := do
  let h ← head v
  let isError (l : Link) : Bool := (l.2.map fun tree => tree.label == .error).getD false
  match h.stack.links.find? isError with
  | some (below, tree) =>
    modifyHead v fun h => { h.withStack below with waypoints := h.waypoints }
    return tree
  | none => return none

def state (number : Nat) : ParseM State := return (← read).state number

/-- The actions at a label in a state. -/
def actionsAt (number : Nat) (label : Label) : ParseM (List Action) := do
  match label with
  | .token t => return (← state number).actionsAt t
  | _ => return []

/-- The state behind a token or phrase, or the error state if it cannot be read. -/
def stateBehind (number : Nat) (label : Label) : ParseM Nat := do
  let s ← state number
  match label with
  | .token t =>
    match (s.actionsAt t).getLast? with
    | some (.shift next _) => return next
    | some .shiftExtra => return number
    | _ => return 0
  | .phrase p => return (s.goto p).getD 0
  | _ => return 0

end ParseM

end ImportClosure.Python
