/-!
# Grammar rules

A rule says how a phrase is made of tokens and other phrases. Rules may offer alternatives and repetitions, and may
bind their parts more or less tightly, to one side or the other. Without its repetitions a rule stands for a list of
productions, which are plain rows of steps.
-/

namespace ImportClosure.Parsing

/-- A token or a phrase, by its number. -/
inductive Symbol where
  | token (number : Nat)
  | phrase (number : Nat)
  deriving DecidableEq, Hashable, Inhabited

/-- The side to which operators of equal level are grouped. -/
inductive Side where
  | left
  | right
  deriving DecidableEq, Hashable

inductive Rule where
  | symbol (s : Symbol)
  | empty
  | seq (first second : Rule)
  | alt (first second : Rule)
  /-- The rule once or more. -/
  | repeated (rule : Rule)
  /-- The rule with the given level of binding, grouped to a side if there is one. -/
  | bound (level : Int) (side : Option Side) (rule : Rule)
  /-- The rule, preferred by the given weight where a text can be read in several ways. -/
  | weighted (weight : Int) (rule : Rule)
  /-- The rule, whose parts are shown in the tree even if they are hidden elsewhere. -/
  | shown (rule : Rule)
  deriving DecidableEq, Inhabited

/-- One symbol of a production and how it is bound. -/
structure Step where
  symbol : Symbol
  level : Int
  side : Option Side
  shown : Bool
  deriving DecidableEq, Hashable

/-- A row of steps that makes a phrase. -/
structure Production where
  steps : List Step
  weight : Int
  deriving DecidableEq, Hashable

/-- The stronger of two weights, the first of two that are equally strong. -/
def strongerWeight (v w : Int) : Int := if v.natAbs < w.natAbs then w else v

namespace Production

def append (p q : Production) : Production := ⟨p.steps ++ q.steps, strongerWeight p.weight q.weight⟩

/-- Changes the last step. -/
def mapLast (f : Step → Step) (p : Production) : Production :=
  match p.steps.reverse with
  | [] => p
  | last :: before => { p with steps := (f last :: before).reverse }

end Production

namespace Rule

def row : List Rule → Rule
  | [] => empty
  | [rule] => rule
  | rule :: rules => seq rule (row rules)

def oneOf : List Rule → Rule
  | [] => empty
  | [rule] => rule
  | rule :: rules => alt rule (oneOf rules)

def optional (rule : Rule) : Rule := alt rule empty

def many (rule : Rule) : Rule := optional (repeated rule)

/-- One or more of a rule, with a separator between each two. -/
def separated (rule separator : Rule) : Rule := seq rule (many (seq separator rule))

/-- The productions of a rule without repetitions, inside of a rule with the given binding. A binding that ends before
the production does is taken off the last step in it, where the outer one holds again. -/
def productions (level : Int) (side : Option Side) (shown atEnd : Bool) : Rule → List Production
  | symbol s => [⟨[⟨s, level, side, shown⟩], 0⟩]
  | empty => [⟨[], 0⟩]
  | seq a b =>
    let heads := a.productions level side shown false
    let tails := b.productions level side shown atEnd
    heads.flatMap fun p => tails.map p.append
  | alt a b => a.productions level side shown atEnd ++ b.productions level side shown atEnd
  | repeated a => a.productions level side shown atEnd
  | bound inner innerSide a =>
    let ps := a.productions inner (innerSide <|> side) shown atEnd
    if atEnd then ps
    else ps.map <| .mapLast fun s => { s with level, side := if innerSide.isSome then side else s.side }
  | weighted weight a =>
    (a.productions level side shown atEnd).map fun p => { p with weight := strongerWeight weight p.weight }
  | Rule.shown a => a.productions level side true atEnd

/-- Puts a phrase of its own in the place of each repetition, the first of them with the given number. The same
repetition is the same phrase throughout. `bodies` are the repeated rules so far. -/
def extractRepeats (firstNumber : Nat) : Rule → StateM (Array Rule) Rule
  | symbol s => return symbol s
  | empty => return empty
  | seq a b => return seq (← a.extractRepeats firstNumber) (← b.extractRepeats firstNumber)
  | alt a b => return alt (← a.extractRepeats firstNumber) (← b.extractRepeats firstNumber)
  | repeated a => do
    let body ← a.extractRepeats firstNumber
    let bodies ← get
    match bodies.idxOf? body with
    | some i => return symbol (.phrase (firstNumber + i))
    | none =>
      set (bodies.push body)
      return symbol (.phrase (firstNumber + bodies.size))
  | bound level side a => return bound level side (← a.extractRepeats firstNumber)
  | weighted weight a => return weighted weight (← a.extractRepeats firstNumber)
  | shown a => return shown (← a.extractRepeats firstNumber)

end Rule

end ImportClosure.Parsing
