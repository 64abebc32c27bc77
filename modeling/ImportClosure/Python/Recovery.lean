import ImportClosure.Python.Reduction

/-!
# Recovery

What a head does where its text does not fit. It may make up one token that is missing; it may go back to a state in
which the next token can be read, with all that was read since as an error; or it may pass over the token. Ways that
cost more than others are given up.
-/

namespace ImportClosure.Python

namespace ParseM

/-- How far down the stack reading may go on after a fault. -/
def waypointDepth : Nat := 16

/-- Notes where reading could go on after a fault, each state once at each depth. -/
def noteWaypoints (v : Nat) : ParseM Unit := do
  let h ← head v
  let visit (found : List Waypoint) (p : Stack.Path) : List Waypoint × Bool :=
    if waypointDepth < p.depth then (found, true)
    else if (found.takeWhile (p.depth ≤ ·.depth)).any fun w => w.depth == p.depth && w.state == p.stack.state then
      (found, false)
    else (⟨p.stack.place, p.depth, p.stack.state⟩ :: found, false)
  let found := Stack.walk visit (h.stack.height + 1) [⟨h.stack, [], 0⟩] []
  modifyHead v ({ · with waypoints := some found.reverse })

/-- Whether a head that would come to a cost is not worth to go on with, since there are better ones. -/
def isBettered (v : Nat) (cost : Nat) : ParseM Bool := do
  let p ← get
  let h ← head v
  let standing : Standing := ⟨cost, h.countSinceFault, h.stack.weight, false⟩
  if p.finished.any fun tree => tree.cost ≤ cost then return true
  (List.range p.heads.size).anyM fun w => do
    let k ← head w
    if w = v ∨ !k.isActive ∨ k.place.offset < h.place.offset then return false
    modifyHead w Head.recount
    match standing.compare k.recount.standing with
    | .takeSecond => return true
    | .preferSecond => return k.canJoin h
    | _ => return false

/-- Goes back to a state at some depth. What was read since is an error. Tells whether the state was found there. -/
def goBack (v : Nat) (depth : Nat) (goal : Nat) : ParseM Bool := do
  let mut found := false
  for (w, ways) in ← pop v depth do
    if (← head w).state ≠ goal then halt w
    else
      let known := ((← popError w).map Tree.children).getD []
      let (trees, extras) := Tree.splitExtras (known ++ ways.headD [])
      if !trees.isEmpty then
        let p := (← head w).place
        push w (some ((Tree.ofChildren .error true [] trees p).asExtra true)) goal
      for extra in extras do push w (some extra) goal
      found := true
  return found

/-- Goes back to the first waypoint at which a token can be read, if that is worth it. -/
def goBackFor (v : Nat) (ahead : Tree) (earlier : Nat) : List Waypoint → ParseM Bool
  | [] => return false
  | w :: rest => do
    let h ← head v
    let taken := ((← get).heads.toList.take earlier).any fun k =>
      k.state == w.state && k.place.offset == h.place.offset
    if w.state = 0 ∨ w.place.offset = h.place.offset ∨ taken then goBackFor v ahead earlier rest
    else
      let cost := h.cost + w.depth * Tree.skippedTreeCost + Tree.spanCost w.place h.place
      if ← isBettered v cost then return false
      else if (← actionsAt w.state ahead.label).isEmpty then goBackFor v ahead earlier rest
      else if ← goBack v (w.depth + if 0 < h.countSinceFault then 1 else 0) w.state then return true
      else goBackFor v ahead earlier rest

/-- Passes over a token, behind what was passed over before. -/
def passOver (v : Nat) (ahead : Tree) : ParseM Unit := do
  let h ← head v
  let extras := (← read).state 1 |>.actionsAt
  let isExtra :=
    match ahead.label with
    | .token t => (extras t).contains .shiftExtra
    | _ => false
  let ahead := if isExtra then ahead.asExtra true else ahead
  let single := Tree.ofChildren .skipped false [] [ahead] h.place
  if 0 < h.countSinceFault then
    match ← pop v 1 with
    | (w, ways) :: _ =>
      modify fun p => { p with heads := p.heads.take (w + 1) }
      moveHead w v
      push v (some (Tree.ofChildren .skipped false [] (ways.headD [] ++ [single]) h.place)) 0
    | [] => push v (some single) 0
  else push v (some single) 0
  match ahead.info.layout with
  | some layout => modifyHead v ({ · with layout := some layout })
  | none => pure ()

/-- Goes on with a head in the error state. -/
def recover (v : Nat) (ahead : Tree) : ParseM Unit := do
  modifyHead v Head.recount
  let earlier ← headCount
  let h ← head v
  let wentBack ← if ahead.label == .error then pure false else goBackFor v ahead earlier (h.waypoints.getD [])
  modify fun p => { p with heads := p.heads.take earlier ++ (p.heads.toSubarray earlier).toArray.filter Head.isActive }
  if ahead.label = .token 0 then
    push v (some (Tree.ofChildren .error true [] [] h.place)) 1
    accept v ahead
  else if wentBack ∧ (headLimit < (← headCount) ∨ ahead.info.changesLayout) then halt v
  else
    let cost := h.cost + Tree.skippedTreeCost + Tree.spanCost ahead.info.before ahead.info.stop
    if ← isBettered v cost then halt v else passOver v ahead

/-- Makes up a token at a head, if a phrase before the next token can be completed with it. The new head is only kept
if it can then read that token. -/
def makeUp (v : Nat) (ahead : Tree) (p : Place) : List Nat → ParseM Bool
  | [] => return false
  | token :: rest => do
    let h ← head v
    let next ← stateBehind h.state (.token token)
    let completes :=
      match ← actionsAt next ahead.label with
      | .reduce _ :: _ => true
      | _ => false
    if next = 0 ∨ next = h.state ∨ !completes then makeUp v ahead p rest
    else
      let copy ← headCount
      addHead { h with waypoints := none }
      push copy (some (Tree.missing token (Label.token token).isShown p)) next
      let only := if ahead.label = .token 0 then none else some ahead.label
      if ← reduceAll copy only then return true else makeUp v ahead p rest

/-- Goes on with a head that cannot read a token. All phrases that could be complete are made first; a token is made up
at the first head where that helps; then there is a fault at all these heads, which become one. -/
def handleFault (v : Nat) (ahead : Tree) : ParseM Unit := do
  let first ← headCount
  let _ ← reduceAll v none
  let last ← headCount
  let p := (← head v).place
  let mut madeUp := false
  for w in v :: (List.range last).filter (first ≤ ·) do
    if !madeUp then
      let tokens := ((← state (← head w).state).tokens).filter (· != 0)
      madeUp ← makeUp w ahead p tokens
    push w none 0
  for _ in [first:last] do
    let _ ← joinHeads v first
  noteWaypoints v
  recover v ahead

end ParseM

end ImportClosure.Python
