import ImportClosure.Python.Lookahead

/-!
# Reductions

Trees on the stack of a head become a phrase when all its parts have been read. Where that leads to several stacks the
head parts; where two ways of reading make the same phrase over the same stack, the better tree is kept.
-/

namespace ImportClosure.Python

open Parsing (Action Reduction)

namespace ParseM

/-- A phrase over its parts, the first of several ways that is not bettered, and the extras behind it. -/
def bestPhrase (r : Reduction) (p : Place) (ways : List (List Tree)) : Tree × List Tree :=
  let label := Label.phrase r.phrase
  let phrases := ways.map fun way =>
    let (parts, extras) := Tree.splitExtras way
    (Tree.ofChildren label label.isShown r.marks parts p, extras)
  match phrases with
  | [] => (Tree.ofChildren label label.isShown r.marks [] p, [])
  | first :: others => others.foldl (fun best other => if best.1.prefers other.1 then other else best) first

/-- Adds to the weight of a tree. -/
def addWeight (weight : Int) (t : Tree) : Tree :=
  .node { t.info with weight := t.info.weight + weight } t.children

/-- How many heads there may be, beyond the halted ones, while a head parts. -/
def partingLimit : Nat := headLimit + 4

/-- Makes a phrase on each of the stacks that a reduction of a head leads to. Tells the first head for such a stack, if
one is left. -/
def reduce (v : Nat) (r : Reduction) : ParseM (Option Nat) := do
  let first ← headCount
  let groups ← pop v r.count
  let halted := ((← get).heads.filter Head.isHalted).size
  let mut removed := 0
  for (number, ways) in groups do
    let w := number - removed
    if partingLimit + halted < w then
      removeHead w
      removed := removed + 1
    else
      let h ← head w
      let (phrase, extras) := bestPhrase r h.place ways
      let next ← stateBehind h.state phrase.label
      push w (some (addWeight r.weight phrase)) next
      for extra in extras do push w (some extra) next
      if ← joinToFirst ((List.range w).filter (· != v)) w then removed := removed + 1
  return if first < (← headCount) then some first else none

/-- Makes all phrases that can be complete at the top of a head and the heads that come from it, for one token or for
any. Only heads that could then read the token are kept. Tells whether there are any. -/
def reduceAll (v : Nat) (only : Option Label) : ParseM Bool := do
  let first ← headCount
  run first 1024 v 0 false
where
  /-- The token that can be read and the reductions that can be made, each once. -/
  possible (v : Nat) : ParseM (Bool × List Reduction) := do
    let h ← head v
    let s ← state h.state
    let actions ←
      match only with
      | some label => actionsAt h.state label
      | none => pure ((s.tokens.filter (· != 0)).flatMap s.actionsAt)
    let canRead := actions.any fun
      | .shift _ again => !again
      | .recover => true
      | _ => false
    let reductions := actions.filterMap fun
      | .reduce r => if 0 < r.count then some r else none
      | _ => none
    return (canRead, reductions.foldl (fun (found : List Reduction) r =>
      if found.any fun f => f.phrase == r.phrase && f.count == r.count then found else found ++ [r]) [])
  /-- Goes over the heads from `w` on; `first` is the first that came from the head. -/
  run (first : Nat) : Nat → Nat → Nat → Bool → ParseM Bool
    | 0, _, _, canRead => return canRead
    | fuel + 1, w, turn, canRead => do
      let count ← headCount
      if count ≤ w then return canRead
      else if ← joinToFirst ((List.range w).filter (first ≤ ·)) w then
        run first fuel w (turn + 1) canRead
      else
        let (reads, reductions) ← possible w
        let mut made : Option Nat := none
        for r in reductions do made ← reduce w r
        let behind := if w = v then count else w + 1
        match reads, made with
        | true, _ => run first fuel behind (turn + 1) true
        | false, some source =>
          if turn < headLimit then
            moveHead source w
            run first fuel w (turn + 1) canRead
          else
            if only.isSome then removeHead w
            run first fuel behind (turn + 1) canRead
        | false, none =>
          if only.isSome then removeHead w
          run first fuel behind (turn + 1) canRead

/-- Keeps the better of two trees for the whole text. -/
def finish (tree : Tree) : ParseM Unit :=
  modify fun p => {
    p with
    finished := some (match p.finished with
      | some known => if known.prefers tree then tree else known
      | none => tree)
    finishedCount := p.finishedCount + 1 }

/-- The tree for the whole text, made of the trees on the stack. The extras around the source become parts of it. -/
def wholeTree? (trees : List Tree) : Option Tree :=
  match Tree.splitExtras trees with
  | (before, extras) =>
    match before.reverse with
    | [] => none
    | source :: rest =>
      some (Tree.ofChildren source.label source.info.isShown source.info.marks
        (rest.reverse ++ source.children ++ extras) source.info.before)

/-- Ends a head at the end of the text. -/
def accept (v : Nat) (ahead : Tree) : ParseM Unit := do
  push v (some ahead) 1
  let h ← head v
  for path in h.stack.pathsToBottom do
    match wholeTree? path.trees with
    | some tree => finish tree
    | none => pure ()
  halt v

end ParseM

end ImportClosure.Python
