import ImportClosure.Python.Recovery

/-!
# Parser

A parse goes on with each of its heads until they have come beyond the others, then compares them and drops those that
are not worth it. It ends when the whole text has been read and nothing better can come.
-/

namespace ImportClosure.Python

open Parsing (Action Tables)

namespace ParseM

/-! ## Steps of one head -/

/-- Reads a token and goes to a state. -/
def shift (v : Nat) (ahead : Tree) (state : Nat) (isExtra : Bool) : ParseM Unit := do
  push v (some (if ahead.isExtra == isExtra then ahead else ahead.asExtra isExtra)) state
  match ahead.info.layout with
  | some layout => modifyHead v ({ · with layout := some layout })
  | none => pure ()

/-- What came of the actions at a token. -/
inductive Turn where
  /-- The token was read, or the head is done. -/
  | done
  /-- Phrases were made; the first head from them, if one is left. -/
  | reduced (head : Option Nat)
  | nothing

/-- Follows the actions at a token, up to the first that does not make a phrase. -/
def follow (v : Nat) (ahead : Tree) : List Action → Turn → ParseM Turn
  | [], turn => return turn
  | .shift _ true :: rest, turn => follow v ahead rest turn
  | .shift state false :: _, _ => do
    shift v ahead state false
    return .done
  | .shiftExtra :: _, _ => do
    shift v ahead (← head v).state true
    return .done
  | .accept :: _, _ => do
    accept v ahead
    return .done
  | .recover :: _, _ => do
    recover v ahead
    return .done
  | .reduce r :: rest, turn => do
    let made ← reduce v r
    let earlier := match turn with
      | .reduced first => first
      | _ => none
    follow v ahead rest (.reduced (made <|> earlier))

/-- Goes on with a head up to the next token and over it. A word that does not fit as a literal is tried as a name. If
nothing fits, the head waits until it is known whether others can go on. -/
def advanceOver (v : Nat) : Nat → Tree → ParseM Unit
  | 0, _ => halt v
  | fuel + 1, ahead => do
    match ← follow v ahead (← actionsAt (← head v).state ahead.label) .nothing with
    | .done => pure ()
    | .reduced (some source) =>
      moveHead source v
      advanceOver v fuel ahead
    | .reduced none => halt v
    | .nothing =>
      let name := Lookahead.leaf .name ahead.info.before ahead.info.start ahead.info.stop
      let fitsAsName := !(← actionsAt (← head v).state name.label).isEmpty
      if ahead.info.isKeyword && ahead.label != name.label && fitsAsName then advanceOver v fuel name
      else modifyHead v fun h => { h with status := .paused ahead, countAtFault := h.stack.count }

/-- Goes on with a head over its next token. Each tree on its stack can become all kinds of phrases first. -/
def advance (v : Nat) : ParseM Unit := do
  let h ← head v
  advanceOver v ((h.stack.height + 2) * (Phrase.all.length + 2)) (← lookahead v)

/-- Goes on with a head until it comes beyond the place to which any head has come; not the first head stops at that
place too. -/
def advanceBeyond (v : Nat) : Nat → Nat → ParseM Nat
  | 0, reached => return reached
  | fuel + 1, reached => do
    if v < (← headCount) ∧ (← head v).isActive then
      advance v
      if v < (← headCount) then
        let offset := (← head v).place.offset
        if reached < offset ∨ 0 < v ∧ offset = reached then return offset else advanceBeyond v fuel reached
      else return reached
    else return reached

/-- Goes on with each head, the new ones too. -/
def advanceEach : Nat → Nat → Nat → ParseM Nat
  | 0, _, reached => return reached
  | fuel + 1, v, reached => do
    if v < (← headCount) then
      let reached ← advanceBeyond v (fuel + 1) reached
      advanceEach fuel (v + 1) reached
    else return reached

/-! ## Choice among heads -/

/-- Puts a head among better ones. Of two heads the worse one is dropped if it is not worth to go on with, or if the
two can be joined; else the better one goes first. -/
def place (standing : Standing) : List Head → Head → List Head
  | [], h => [h]
  | k :: rest, h =>
    match k.standing.compare standing with
    | .takeFirst => k :: rest
    | .takeSecond => place standing rest h
    | .preferSecond => if k.canJoin h then k.join h :: rest else h :: place standing rest k
    | _ => if k.canJoin h then k.join h :: rest else k :: place standing rest h

/-- The heads that are worth to go on with, the best ones first. -/
def ranked (heads : List Head) : List Head :=
  (heads.filter (!·.isHalted)).foldl (fun better h => place h.standing better h) []

/-- The least cost of a head that is at no fault. -/
def leastCost? (heads : List Head) : Option Nat :=
  ((heads.filter (!·.isHalted)).map Head.standing).filter (!·.isFaulty) |>.map (·.cost) |>.min?

/-- Resumes the first waiting head if all before it wait, and drops the other waiting ones. Tells the cost of the one
that was resumed. -/
def resume : Nat → Nat → Nat → Bool → Option Nat → ParseM (Option Nat)
  | 0, _, _, _, cost => return cost
  | fuel + 1, v, count, resumed, cost => do
    if count ≤ v then return cost
    else
      let h ← head v
      match h.status with
      | .paused ahead =>
        if !resumed ∧ (← get).finishedCount < headLimit then
          modifyHead v ({ · with status := .active })
          handleFault v ahead
          resume fuel (v + 1) count true (some h.cost)
        else
          removeHead v
          resume fuel v (count - 1) resumed cost
      | _ => resume fuel (v + 1) count true cost

/-- Drops the heads that are not worth to go on with, and resumes a waiting one if no other can go on. Tells the least
cost that a tree for the text can still have. -/
def condense : ParseM (Option Nat) := do
  let heads := (← get).heads.toList.map Head.recount
  let kept := (ranked heads).take headLimit
  modify ({ · with heads := kept.toArray })
  resume (kept.length + 1) 0 kept.length false (leastCost? heads)

/-- Goes on until nothing better than the tree found can come. -/
def rounds : Nat → Nat → ParseM Unit
  | 0, _ => return
  | fuel + 1, reached => do
    let reached ← advanceEach (fuel + 1) 0 reached
    let least ← condense
    let p ← get
    let isDone := match p.finished, least with
      | some tree, some least => decide (tree.cost < least)
      | some _, none => true
      | none, _ => false
    if isDone || p.heads.isEmpty then return else rounds fuel reached

end ParseM

/-- How many rounds a parse may take for a text of some length. Hardly more than one is needed for each token. -/
def roundLimit (length : Nat) : Nat := 1000 + 100 * length

/-- The tree of a text. -/
def parse (tables : Tables) (text : List Char) : Option Tree :=
  let first : Head := { stack := .bottom 1 (.ofText text) }
  (ParseM.rounds (roundLimit text.length) 0 tables { heads := #[first] }).2.finished

end ImportClosure.Python
