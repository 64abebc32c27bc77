import ImportClosure.Parsing.Item

/-!
# Automata

The states of a parser and what to do in each of them at each token. Where a token could be both read and end a phrase,
the bindings of the rules decide; where they do not, all actions are kept and the parser tries each of them.

State 0 is for text that fits nowhere and state 1 for the begin of the text.
-/

namespace ImportClosure.Parsing

/-- A production as it is seen when its phrase is complete. -/
structure Reduction where
  phrase : Nat
  /-- The number of its steps. -/
  count : Nat
  weight : Int
  /-- Which of its steps are shown. -/
  marks : List Bool
  deriving DecidableEq, Inhabited

inductive Action where
  /-- Read the token and go on in a state. `again` tells that this lengthens a repetition that could also end here. -/
  | shift (state : Nat) (again : Bool)
  /-- Read the token as an addition that may stand anywhere. -/
  | shiftExtra
  | reduce (r : Reduction)
  | accept
  /-- Pass over the token. -/
  | recover
  deriving DecidableEq

structure State where
  /-- The actions at each token. -/
  actions : Array (List Action)
  /-- The state behind each phrase. -/
  gotos : Array (Option Nat)
  deriving Inhabited

namespace State

def empty (g : Grammar) : State := ⟨.replicate g.tokenCount [], .replicate g.phraseCount none⟩

def actionsAt (s : State) (token : Nat) : List Action := s.actions.getD token []

def goto (s : State) (phrase : Nat) : Option Nat := s.gotos.getD phrase none

/-- The tokens at which there is something to do. -/
def tokens (s : State) : List Nat :=
  (List.range s.actions.size).filter fun t => !(s.actionsAt t).isEmpty

/-- The phrases behind which there is a state. -/
def phrases (s : State) : List Nat :=
  (List.range s.gotos.size).filter fun p => (s.goto p).isSome

def setActions (s : State) (token : Nat) (actions : List Action) : State :=
  { s with actions := s.actions.setIfInBounds token actions }

end State

/-! ## Choice of actions -/

/-- The action when an item is complete. -/
def Item.reduction (g : Grammar) (i : Item) : Action :=
  if i.phrase = g.phraseCount then .accept else .reduce ⟨i.phrase, i.position, i.weight, i.marks⟩

/-- The items that bind most tightly. -/
def tightest (items : List Item) : List Item :=
  items.filter fun i => items.all fun j => j.level ≤ i.level

/-- What to do at a token that completes the items `ends`, is read next in the items `going`, and leads to the state
`target` if it can be read. Reading wins over items that bind less tightly and loses against items that bind more
tightly; among equals the side of the items decides. -/
def chooseActions (g : Grammar) (ends going : List Item) (target : Option Nat) : List Action :=
  let best := tightest ends
  let reductions := best.map (Item.reduction g)
  match target, best with
  | none, _ => reductions
  | some state, [] => [.shift state false]
  | some state, i :: _ =>
    if g.isRepeat i.phrase ∧ (going ++ ends).all (·.phrase = i.phrase) then reductions ++ [.shift state true]
    else
      let reading := [Action.shift state false]
      match going.any (i.level < ·.level), going.any (·.level < i.level) with
      | true, false => reading
      | false, true => reductions
      | true, true => reductions ++ reading
      | false, false =>
        if best.all (·.side = some .left) then reductions
        else if best.all (·.side = some .right) then reading
        else reductions ++ reading

/-! ## Construction -/

/-- States found so far, each with its kernel. -/
structure Draft where
  states : Array State
  kernels : Array Kernel
  /-- For each state, the number of its kernel's items without the tokens behind them. -/
  cores : Array Nat
  numbers : Std.HashMap Kernel Nat
  coreNumbers : Std.HashMap (Array Nat) Nat

namespace Draft

/-- The state for a kernel, which is a new one if there is none yet. -/
def stateFor (d : Draft) (g : Grammar) (kernel : Kernel) : Nat × Draft :=
  match d.numbers[kernel]? with
  | some n => (n, d)
  | none =>
    let n := d.states.size
    let core := kernel.map (·.1)
    let coreNumber := d.coreNumbers.getD core d.coreNumbers.size
    (n, {
      states := d.states.push (.empty g)
      kernels := d.kernels.push kernel
      cores := d.cores.push coreNumber
      numbers := d.numbers.insert kernel n
      coreNumbers := d.coreNumbers.insert core coreNumber })

/-- The error state and the state for the begin of the text. -/
def begin (t : Items) : Draft :=
  let none : Draft := ⟨#[], #[], #[], ∅, ∅⟩
  let whole := Items.numberOf t.numbers (Item.whole t.grammar)
  let withError := (none.stateFor t.grammar #[]).2
  (withError.stateFor t.grammar #[(whole, .single 0)]).2

/-- The kernels behind each token and behind each phrase. -/
def successors (t : Items) (closed : List (Nat × NumberSet)) :
    Array (List (Nat × NumberSet)) × Array (List (Nat × NumberSet)) :=
  closed.foldl (fun (tokens, phrases) (number, following) =>
    let successor := t.successors.getD number 0
    match (t.item number).next? with
    | some (.token s) => (tokens.modify s fun k => Kernel.add k successor following, phrases)
    | some (.phrase p) => (tokens, phrases.modify p fun k => Kernel.add k successor following)
    | none => (tokens, phrases))
    (.replicate t.grammar.tokenCount [], .replicate t.grammar.phraseCount [])

/-- The states for kernels; there is none for an empty one. -/
def statesFor (d : Draft) (g : Grammar) (kernels : Array (List (Nat × NumberSet))) : Array (Option Nat) × Draft :=
  kernels.foldl (fun (states, d) kernel =>
    match kernel with
    | [] => (states.push none, d)
    | _ =>
      let (state, d) := d.stateFor g kernel.toArray
      (states.push (some state), d)) (#[], d)

/-- The order in which complete items are considered. -/
def isBefore (i j : Nat × Item) : Bool :=
  i.2.position < j.2.position ||
    i.2.position == j.2.position && (i.2.phrase < j.2.phrase || i.2.phrase == j.2.phrase && i.1 ≤ j.1)

/-- Finds the actions and successors of a state. The extra tokens are read wherever nothing else is done at them. -/
def complete (t : Items) (extras : List Nat) (d : Draft) (state : Nat) : Draft :=
  let g := t.grammar
  let kernel := d.kernels.getD state #[]
  let closed := (t.close kernel).toList
  let (tokenKernels, phraseKernels) := successors t closed
  let (targets, d) := d.statesFor g tokenKernels
  let (gotos, d) := d.statesFor g phraseKernels
  let going := (kernel.toList.map fun (number, _) => t.item number).filter fun i => i.position != 0 && !i.isComplete
  let ends := ((closed.map fun (number, following) => (number, t.item number, following)).filter
    (·.2.1.isComplete)).mergeSort fun i j => isBefore (i.1, i.2.1) (j.1, j.2.1)
  let endsAt := ends.foldl (fun (found : Array (List Item)) (_, i, following) =>
    following.toList.foldl (fun found token => found.modify token (i :: ·)) found) (.replicate g.tokenCount [])
  let actions := targets.mapIdx fun token target =>
    match endsAt.getD token [], target with
    | [], none => if extras.contains token then [.shiftExtra] else []
    | [], some state => [.shift state false]
    | ends, target =>
      let reading := going.filter fun i =>
        (i.next?.map fun s => (Grammar.firstOf t.first s).contains token).getD false
      chooseActions g ends.reverse reading target
  { d with states := d.states.setIfInBounds state ⟨actions, gotos⟩ }

/-- Completes all states from the given one on, those found on the way too. -/
def completeFrom (t : Items) (extras : List Nat) : Nat → Nat → Draft → Draft
  | 0, _, d => d
  | fuel + 1, state, d =>
    if state < d.states.size then completeFrom t extras fuel (state + 1) (d.complete t extras state) else d

/-- The largest number of states that are made. -/
def stateLimit : Nat := 65536

/-- All states of a grammar. -/
def ofItems (t : Items) (extras : List Nat) : Draft :=
  completeFrom t extras stateLimit 1 (begin t)

end Draft

end ImportClosure.Parsing
