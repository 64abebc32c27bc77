import ImportClosure.Parsing.Automaton

/-!
# Merging of states

Many states of an automaton do the same at every token. States with the same core are kept apart only where they act
differently, where their successors are kept apart, or where a token that only one of them knows could be mistaken for
one that only the other knows. States that do nothing but complete a phrase of one part are passed over if nobody can
see the phrase.
-/

namespace ImportClosure.Parsing

/-- Which tokens can be mistaken for which. -/
structure Clashes where
  /-- For each token, those that may be read where it was meant. -/
  table : Array NumberSet
  /-- The tokens that are only looked for in states that know them. -/
  fixed : NumberSet
  deriving Inhabited

/-- Whether a token can be mistaken for one of the given ones. -/
def Clashes.between (c : Clashes) (token : Nat) (known : NumberSet) : Bool :=
  (c.table.getD token .empty).meets known

/-! ## Unseen phrases -/

/-- The phrase of one unseen part that is all a state completes. -/
def State.unseen? (isUnseen : Nat → Bool) (s : State) : Option Nat :=
  let phrases := (s.actions.toList.flatten.filter (· != .shiftExtra)).map fun
    | .reduce ⟨phrase, 1, 0, [false]⟩ => if isUnseen phrase then some phrase else none
    | _ => none
  match phrases with
  | some phrase :: rest => if rest.all (· == some phrase) then some phrase else none
  | _ => none

/-- The state to go on in instead of one that completes an unseen phrase; each such step leads to a larger phrase. -/
def State.passOver (unseen : Array (Option Nat)) (s : State) : Nat → Nat → Nat
  | 0, target => target
  | fuel + 1, target =>
    match (unseen.getD target none).bind s.goto with
    | some next => s.passOver unseen fuel next
    | none => target

/-- The action that leads to other states. -/
def Action.mapState (f : Nat → Nat) : Action → Action
  | .shift state again => .shift (f state) again
  | action => action

/-- The state with other successors. -/
def State.mapStates (f : Nat → Nat) (s : State) : State :=
  ⟨s.actions.map (·.map (Action.mapState f)), s.gotos.map (·.map f)⟩

/-- The states without steps to unseen phrases. -/
def passOverUnseen (isUnseen : Nat → Bool) (states : Array State) : Array State :=
  let unseen := states.map (State.unseen? isUnseen)
  states.map fun s => s.mapStates (s.passOver unseen s.gotos.size)

/-! ## Partitions -/

/-- States in groups. -/
structure Partition where
  groups : Array (List Nat)
  /-- The group of each state. -/
  groupOf : Array Nat

namespace Partition

def ofGroups (groupOf : Array Nat) : Partition :=
  let count := groupOf.foldl (fun n group => max n (group + 1)) 0
  let groups := groupOf.toList.zipIdx.foldl (fun groups (group, state) => groups.modify group (state :: ·))
    (Array.replicate count [])
  ⟨groups.map List.reverse, groupOf⟩

def group (p : Partition) (state : Nat) : Nat := p.groupOf.getD state 0

/-- Whether two lists of actions differ, states of one group counting as one. -/
def actionsDiffer (p : Partition) : List Action → List Action → Bool
  | [], [] => false
  | .shift s again :: as_, .shift t again' :: bs =>
    p.group s != p.group t || again != again' || p.actionsDiffer as_ bs
  | a :: as_, b :: bs => a != b || p.actionsDiffer as_ bs
  | _, _ => true

/-- Whether states act differently, or know tokens that clash. -/
def statesDiffer (clashes : Clashes) (states : Array State) (known : Array NumberSet) (p : Partition) (l r : Nat) :
    Bool :=
  let left := states.getD l default
  let right := states.getD r default
  let knownLeft := known.getD l .empty
  let knownRight := known.getD r .empty
  let clash (token : Nat) (others : NumberSet) := clashes.fixed.contains token || clashes.between token others
  (knownLeft.inter knownRight).toList.any (fun t => p.actionsDiffer (left.actionsAt t) (right.actionsAt t)) ||
    (knownLeft.diff knownRight).toList.any (clash · knownRight) ||
    (knownRight.diff knownLeft).toList.any (clash · knownLeft)

/-- Whether some successors of states that have both are in different groups. -/
def successorsDiffer (states : Array State) (known reached : Array NumberSet) (p : Partition) (l r : Nat) : Bool :=
  let left := states.getD l default
  let right := states.getD r default
  let apart : Option Nat → Option Nat → Bool
    | some s, some t => p.group s != p.group t
    | _, _ => false
  let target (actions : List Action) : Option Nat :=
    match actions.getLast? with
    | some (.shift state _) => some state
    | _ => none
  ((known.getD l .empty).inter (known.getD r .empty)).toList.any
      (fun t => apart (target (left.actionsAt t)) (target (right.actionsAt t))) ||
    ((reached.getD l .empty).inter (reached.getD r .empty)).toList.any
      fun phrase => apart (left.goto phrase) (right.goto phrase)

/-- Separates the states that differ from one that stays. -/
def separate (differ : Nat → Nat → Bool) : Nat → List Nat → List Nat × List Nat
  | 0, states => (states, [])
  | _, [] => ([], [])
  | fuel + 1, state :: states =>
    let (away, near) := states.partition (differ state)
    let (stay, moved) := separate differ fuel near
    (state :: stay, away ++ moved)

/-- Splits one group into those that stay and a new group. -/
def splitGroup (differ : Partition → Nat → Nat → Bool) (p : Partition) (group : Nat) : Partition :=
  let states := p.groups.getD group []
  match separate (differ p) states.length states with
  | (_, []) => p
  | (stay, moved) =>
    { groups := (p.groups.setIfInBounds group stay).push moved
      groupOf := moved.foldl (fun groupOf state => groupOf.setIfInBounds state p.groups.size) p.groupOf }

/-- Splits each group once, the new ones too. There are never more groups than states. -/
def split (differ : Partition → Nat → Nat → Bool) (p : Partition) : Partition :=
  (List.range p.groupOf.size).foldl
    (fun p group => if group < p.groups.size then p.splitGroup differ group else p) p

/-- Splits groups until none is split any more. -/
def settle (differ : Partition → Nat → Nat → Bool) : Nat → Partition → Partition
  | 0, p => p
  | fuel + 1, p =>
    let next := p.split differ
    if next.groups.size = p.groups.size then p else settle differ fuel next

/-- The numbers of the groups in the order of the merged states: that of the error state, that of the first state, and
the others. -/
def order (p : Partition) : List Nat :=
  let begin := [p.group 0, p.group 1]
  begin ++ (List.range p.groups.size).filter fun group => !begin.contains group

end Partition

/-! ## Merged states -/

/-- What either state does; where both do something, that of the second. -/
def State.merge (s t : State) : State :=
  ⟨s.actions.mapIdx fun token actions => if (t.actionsAt token).isEmpty then actions else t.actionsAt token,
    s.gotos.mapIdx fun phrase target => t.goto phrase <|> target⟩

/-- How much a state knows. -/
def State.size (s : State) : Nat := s.tokens.length + s.phrases.length

/-- The states to which a state leads. -/
def State.targets (s : State) : List Nat :=
  s.gotos.toList.filterMap id ++ s.actions.toList.flatten.filterMap fun
    | .shift state _ => some state
    | _ => none

/-- One state for each group of states. -/
def Partition.merged (p : Partition) (states : Array State) : Array State :=
  let order := p.order
  let places := order.zipIdx.foldl (fun (places : Array Nat) (group, place) => places.setIfInBounds group place)
    (.replicate p.groups.size 0)
  (order.map fun group =>
    match p.groups.getD group [] with
    | [] => default
    | state :: rest =>
      (rest.foldl (fun (s : State) other => s.merge (states.getD other default)) (states.getD state default)).mapStates
        fun target => places.getD (p.group target) 0).toArray

/-- Keeps the states that others lead to, and after the first two puts those in front that know more. -/
def sortBySize (states : Array State) : Array State :=
  let used := states.foldl (fun used s => s.targets.foldl (fun (used : Array Bool) t => used.setIfInBounds t true) used)
    (.replicate states.size false)
  let numbered := states.toList.zipIdx
  let rest := ((numbered.drop 2).filter fun (_, n) => used.getD n false).map fun (s, n) => (s.size, s, n)
  let sorted := numbered.take 2 ++ (rest.mergeSort fun (k, _) (l, _) => l ≤ k).map (·.2)
  let places := sorted.zipIdx.foldl (fun (places : Array Nat) ((_, n), place) => places.setIfInBounds n place)
    (.replicate states.size 0)
  (sorted.map fun (s, _) => s.mapStates fun target => places.getD target 0).toArray

/-- Merges the states of a draft. -/
def Draft.mergedStates (d : Draft) (isUnseen : Nat → Bool) (clashes : Clashes) : Array State :=
  let states := passOverUnseen isUnseen d.states
  let known := states.map fun s => NumberSet.ofList s.tokens
  let reached := states.map fun s => NumberSet.ofList s.phrases
  let byActions := (Partition.ofGroups d.cores).split (Partition.statesDiffer clashes states known)
  let settled := byActions.settle (Partition.successorsDiffer states known reached) states.size
  sortBySize (settled.merged states)

end ImportClosure.Parsing
