import ImportClosure.Parsing.Grammar
import Std.Data.HashMap

/-!
# Items

An item is a production that has been read up to one of its steps. What can be going on at one place of a text is a set
of items, each with the tokens that can follow its production there. Items that lie behind the same symbols are found
from a few kernel items by closing these under the productions of the phrases to be read next.
-/

namespace ImportClosure.Parsing

/-- A production read up to some step. Productions of a phrase are one item where they agree in all that is still to be
read, and in what counts when the phrase is complete. -/
structure Item where
  phrase : Nat
  weight : Int
  /-- Which of the steps read are shown, the first step first. -/
  marks : List Bool
  /-- How the step read last is bound. -/
  level : Int
  side : Option Side
  rest : List Step
  deriving DecidableEq, Hashable, Inhabited

namespace Item

def start (phrase : Nat) (p : Production) : Item := ⟨phrase, p.weight, [], 0, none, p.steps⟩

/-- The item before the whole text, which is made of the first phrase. Its own number is that of no phrase. -/
def whole (g : Grammar) : Item := start g.phraseCount ⟨[⟨.phrase 0, 0, none, false⟩], 0⟩

def position (i : Item) : Nat := i.marks.length

def isComplete (i : Item) : Bool := i.rest.isEmpty

/-- The symbol to be read next. -/
def next? (i : Item) : Option Symbol := i.rest.head?.map Step.symbol

/-- The item behind its next step. -/
def advance (i : Item) : Item :=
  match i.rest with
  | [] => i
  | s :: rest => ⟨i.phrase, i.weight, i.marks ++ [s.shown], s.level, s.side, rest⟩

/-- The item and those behind its next steps. -/
def path (i : Item) : Nat → List Item
  | 0 => [i]
  | n + 1 => i :: i.advance.path n

end Item

/-! ## Numbered items -/

/-- Items by number, with all that is asked of them while sets of items are made. -/
structure Items where
  grammar : Grammar
  first : Array NumberSet
  items : Array Item
  numbers : Std.HashMap Item Nat
  /-- The number of each item's successor. -/
  successors : Array Nat
  /-- For each phrase, the items in which it or a phrase at its front is begun. -/
  openings : Array (List (Nat × Grammar.Front))

namespace Items

def numberOf (numbers : Std.HashMap Item Nat) (i : Item) : Nat := numbers.getD i 0

def ofGrammar (g : Grammar) : Items :=
  let ofPhrase (phrase : Nat) : List Item :=
    (g.productionsOf phrase).flatMap fun p => (Item.start phrase p).path p.steps.length
  let all := (Item.whole g).path 1 ++ (List.range g.phraseCount).flatMap ofPhrase
  let (items, numbers) := all.foldl (fun (items, numbers) i =>
    if Std.HashMap.contains numbers i then (items, numbers)
    else (items.push i, numbers.insert i items.size)) ((#[] : Array Item), (∅ : Std.HashMap Item Nat))
  let first := g.firstTokens
  let openings := (g.fronts first).map fun fronts =>
    fronts.flatMap fun (q, front) =>
      ((g.productionsOf q).map fun p => (numberOf numbers (Item.start q p), front)).eraseDups
  { grammar := g, first, items, numbers, openings
    successors := items.map fun i => numberOf numbers i.advance }

def item (t : Items) (number : Nat) : Item := t.items.getD number default

end Items

/-! ## Item sets -/

/-- Items with the tokens that can follow their productions, in the order of their numbers. -/
abbrev Kernel := Array (Nat × NumberSet)

namespace Kernel

/-- Adds an item, which stays one if it is there already. -/
def add (k : List (Nat × NumberSet)) (item : Nat) (following : NumberSet) : List (Nat × NumberSet) :=
  match k with
  | [] => [(item, following)]
  | (i, tokens) :: rest =>
    if item < i then (item, following) :: k
    else if item = i then (i, tokens.union following) :: rest
    else (i, tokens) :: add rest item following

end Kernel

/-- All items at the place of a kernel, by number. -/
def Items.close (t : Items) (kernel : Kernel) : Std.HashMap Nat NumberSet :=
  kernel.foldl (fun found (number, following) =>
    match (t.item number).rest with
    | ⟨.phrase p, _, _, _⟩ :: next =>
      let behind := (next.head?.map fun s => Grammar.firstOf t.first s.symbol).getD following
      (t.openings.getD p []).foldl (fun found (opened, front) =>
        let tokens := if front.inherits then front.following.union behind else front.following
        found.insert opened ((found.getD opened .empty).union tokens)) found
    | _ => found) (Std.HashMap.ofList kernel.toList)

end ImportClosure.Parsing
