import ImportClosure.Parsing.Rule
import ImportClosure.Parsing.NumberSet

/-!
# Grammars

A grammar gives each phrase its productions. Phrases are numbered in the order of their rules, the first of which is for
the whole text; the phrases that stand for repetitions come behind. Only the whole text may be empty.
-/

namespace ImportClosure.Parsing

structure Grammar where
  tokenCount : Nat
  /-- The number of phrases with a rule of their own; the others are repetitions. -/
  ruleCount : Nat
  /-- The productions of each phrase. -/
  productions : Array (List Production)
  deriving Inhabited

namespace Grammar

/-- The grammar with the given rules. A repetition is two repetitions of the same, or what is repeated. -/
def ofRules (tokenCount : Nat) (rules : List Rule) : Grammar :=
  let ruleCount := rules.length
  let (rules, bodies) := (rules.mapM (Rule.extractRepeats ruleCount)).run #[]
  let repeats := bodies.toList.zipIdx.map fun (body, i) =>
    let again := Rule.symbol (.phrase (ruleCount + i))
    Rule.alt (.seq again again) body
  { tokenCount, ruleCount
    productions := ((rules ++ repeats).map fun rule => (rule.productions 0 none false true).eraseDups).toArray }

def phraseCount (g : Grammar) : Nat := g.productions.size

/-- Whether a phrase stands for a repetition. -/
def isRepeat (g : Grammar) (phrase : Nat) : Bool := g.ruleCount ≤ phrase

def productionsOf (g : Grammar) (phrase : Nat) : List Production := g.productions.getD phrase []

/-! ## First tokens -/

/-- The tokens with which a symbol can begin, where those of each phrase are known. -/
def firstOf (first : Array NumberSet) : Symbol → NumberSet
  | .token t => .single t
  | .phrase p => first.getD p .empty

/-- Adds to the first tokens of each phrase those of its productions. -/
def widenFirst (g : Grammar) (first : Array NumberSet) : Array NumberSet :=
  first.mapIdx fun phrase tokens =>
    (g.productionsOf phrase).foldl (fun tokens p =>
      match p.steps with
      | [] => tokens
      | step :: _ => tokens.union (firstOf first step.symbol)) tokens

/-- The tokens with which each phrase can begin. A token reaches a phrase over at most all the others. -/
def firstTokens (g : Grammar) : Array NumberSet :=
  g.phraseCount.repeat g.widenFirst (Array.replicate g.phraseCount .empty)

/-! ## Phrases at the front of phrases -/

/-- How a phrase can stand at the front of another one: what can follow it there, and whether all that follows the
other one can follow it too. -/
structure Front where
  following : NumberSet
  inherits : Bool
  deriving DecidableEq, Inhabited

def Front.join (a b : Front) : Front := ⟨a.following.union b.following, a.inherits || b.inherits⟩

/-- The phrases that begin productions of a phrase, each with the tokens that can follow it in the production, if it
does not end there. -/
def beginnings (g : Grammar) (first : Array NumberSet) (phrase : Nat) : List (Nat × Option NumberSet) :=
  ((g.productionsOf phrase).filterMap fun p =>
    match p.steps with
    | ⟨.phrase q, _, _, _⟩ :: next => some (q, next.head?.map fun step => firstOf first step.symbol)
    | _ => none).eraseDups

/-- Goes on from phrases found at the front to those at the front of these. -/
def collectFronts (beginnings : Array (List (Nat × Option NumberSet))) :
    Nat → List (Nat × Front) → Array (Option Front) → Array (Option Front)
  | 0, _, found => found
  | _, [], found => found
  | fuel + 1, (phrase, front) :: open_, found =>
    let known := found.getD phrase none
    let joined := (known.map (Front.join front)).getD front
    if known = some joined then collectFronts beginnings fuel open_ found
    else
      let more := (beginnings.getD phrase []).map fun (q, following) =>
        (q, (following.map fun tokens => ⟨tokens, false⟩).getD joined)
      collectFronts beginnings fuel (more ++ open_) (found.setIfInBounds phrase (some joined))

/-- All phrases at the front of each phrase, itself included. What is known of a phrase can grow by one token or the
inheritance at a time, so the work is bounded. -/
def fronts (g : Grammar) (first : Array NumberSet) : Array (List (Nat × Front)) :=
  let begins := (Array.range g.phraseCount).map (g.beginnings first)
  let fuel := g.phraseCount * (g.tokenCount + 2) * (begins.foldl (fun n l => n + l.length) 1)
  (Array.range g.phraseCount).map fun phrase =>
    let found := collectFronts begins fuel [(phrase, ⟨.empty, true⟩)] (Array.replicate g.phraseCount none)
    found.toList.zipIdx.filterMap fun (front, q) => front.map (q, ·)

end Grammar

end ImportClosure.Parsing
