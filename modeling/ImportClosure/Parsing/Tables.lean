import ImportClosure.Parsing.Merging

/-!
# Parser tables

Everything that a parser knows of a language: the merged states of its grammar and, for each state, the tokens that are
looked for there. States share what they look for as long as none of it can be mistaken for something else, so that a
token which does not fit is seen as what it is.
-/

namespace ImportClosure.Parsing

/-- A grammar with what there is to know of its tokens and phrases. -/
structure Description where
  tokenCount : Nat
  /-- The rule of each phrase, that of the whole text first. -/
  rules : List Rule
  /-- The tokens that may stand anywhere. -/
  extras : List Nat
  /-- The token of all words, and the words that are tokens of their own. -/
  word : Nat
  keywords : NumberSet
  /-- The tokens that are not found by their text alone. -/
  layout : NumberSet
  /-- The tokens that are never passed over. -/
  unskipped : NumberSet
  clashes : Clashes
  /-- The phrases that leave no trace in a tree, repetitions apart. -/
  isUnseen : Nat → Bool

structure Tables where
  states : Array State
  /-- The tokens that each state knows. -/
  known : Array NumberSet
  /-- The tokens that are looked for in each state. -/
  wanted : Array NumberSet
  deriving Inhabited

namespace Description

/-- The tokens to be looked for where those of a state are known: a word is looked for as a word first. -/
def search (d : Description) (known : NumberSet) : NumberSet :=
  let plain := (known.diff d.layout).diff d.keywords
  if (known.diff d.layout).meets d.keywords then plain.insert d.word else plain

/-- Whether none of the tokens in which the sets differ can be mistaken for one of the other set. -/
def canShare (d : Description) (s t : NumberSet) : Bool :=
  !(s.diff t).toList.any (d.clashes.between · t) && !(t.diff s).toList.any (d.clashes.between · s)

/-- Joins a set to the first of the shared ones that it can share with, and tells which one that is. -/
def share (d : Description) (s : NumberSet) : List NumberSet → List NumberSet × Nat
  | [] => ([s], 0)
  | t :: shared =>
    if d.canShare t s then (t.union s :: shared, 0)
    else
      let (shared, place) := d.share s shared
      (t :: shared, place + 1)

/-- The sets of tokens to be looked for, shared where that is possible. -/
def shareAll (d : Description) (sets : List NumberSet) : Array NumberSet :=
  let (shared, places) := sets.foldl (fun (shared, places) s =>
    let (shared, place) := d.share s shared
    (shared, place :: places)) ([], [])
  let shared := shared.toArray
  (places.reverse.map fun place => shared.getD place .empty).toArray

/-- The state for text that fits nowhere, in which tokens are passed over. -/
def errorState (d : Description) (g : Grammar) : State :=
  (List.range d.tokenCount).foldl (fun (s : State) token =>
    if d.unskipped.contains token then s else s.setActions token [.recover]) (.empty g)

def tables (d : Description) : Tables :=
  let g := Grammar.ofRules d.tokenCount d.rules
  let draft := Draft.ofItems (.ofGrammar g) d.extras
  let draft := { draft with states := draft.states.setIfInBounds 0 (d.errorState g) }
  let isUnseen (phrase : Nat) := if g.isRepeat phrase then true else d.isUnseen phrase
  let states := draft.mergedStates isUnseen d.clashes
  let known := states.map fun s => NumberSet.ofList s.tokens
  { states, known, wanted := d.shareAll (known.toList.map d.search) }

end Description

namespace Tables

def state (t : Tables) (number : Nat) : State := t.states.getD number default

def knownIn (t : Tables) (state : Nat) : NumberSet := t.known.getD state .empty

def wantedIn (t : Tables) (state : Nat) : NumberSet := t.wanted.getD state .empty

end Tables

end ImportClosure.Parsing
