import ImportClosure.Python.Heads
import ImportClosure.Python.Lexeme
import ImportClosure.Python.Phrase

/-!
# Lookahead

The next token for a head. Layout tokens go before others. A token is first looked for among those that fit the state;
if there is none, any token will do, and what cannot be part of a token is passed over up to the next one.
-/

namespace ImportClosure.Python

/-- Whether a label stands for itself in a tree. Line tokens and some parts of strings do not. -/
def Label.isShown : Label → Bool
  | .token n =>
    match Token.ofNumber n with
    | .backslash | .formatText | .newline | .indent | .dedent | .stringText | .endOfText => false
    | _ => true
  | .phrase n => (Phrase.all[n]?.map Phrase.isShown).getD false
  | .error => true
  | .skipped => false

namespace Lookahead

/-- A token as the next part of a tree. -/
def leaf (token : Token) (before start stop : Place) : Tree :=
  let label := Label.token token.number
  .node { label, before, start, stop, isShown := label.isShown, isExtra := token == .endOfText } []

/-- Text that was passed over because it is part of no token. -/
def garbage (before start stop : Place) : Tree :=
  .node { label := .error, before, start, stop } []

/-- A layout token as the next part of a tree. -/
def layoutLeaf (t : LayoutToken) (before : Place) (changesLayout : Bool) : Tree :=
  let leaf := leaf t.token before t.start t.stop
  .node { leaf.info with layout := some t.layout, changesLayout } []

/-- A literal word where the state knows it, else a name. -/
def wordLeaf (knows : Token → Bool) (before start stop : Place) : Tree :=
  let text := String.ofList (start.textTo stop)
  if Token.keywords.contains text then
    let token := if knows (.literal text) then .literal text else .name
    .node { (leaf token before start stop).info with isKeyword := true } []
  else leaf .name before start stop

/-- What is known of a state while its next token is looked for. -/
structure Search where
  /-- The tokens of the state, and those to be looked for there and anywhere. -/
  knows : Token → Bool
  wants : Token → Bool
  wantsAnywhere : Token → Bool
  /-- Whether a layout token without text may be read that changes nothing. -/
  allowsEmpty : Token → Bool
  layout : Option Layout

/-- Looks for a layout token. One that has no text and changes nothing must lead on. -/
def Search.layoutToken? (s : Search) (anywhere : Bool) (p : Place) : Option (LayoutToken × Bool) :=
  let wants (t : Token) : Bool := anywhere || s.knows t
  match (s.layout.getD {}).search wants p.begin with
  | .found t =>
    let changes := some t.layout != s.layout
    if t.stop.offset ≤ p.offset && !changes && (anywhere || !s.allowsEmpty t.token) then none else some (t, changes)
  | _ => none

/-- Looks for a token, at first among those that fit the state and then `anywhere`. `skipped` is the text that was
passed over. -/
def Search.run (s : Search) (before : Place) : Nat → Bool → Place → Option (Place × Place) → Tree
  | 0, _, p, _ => garbage before p p
  | fuel + 1, anywhere, p, skipped =>
    let finish (leaf : Tree) : Tree := (skipped.map fun (start, stop) => garbage before start stop).getD leaf
    match s.layoutToken? anywhere p with
    | some (t, changes) => finish (layoutLeaf t before changes)
    | none =>
      let lexeme := Lexeme.find (if anywhere then s.wantsAnywhere else s.wants) p.begin
      match lexeme.token with
      | some .name => finish (wordLeaf s.knows before lexeme.start lexeme.stop)
      | some token => finish (leaf token before lexeme.start lexeme.stop)
      | none =>
        if !anywhere then s.run before fuel true before skipped
        else
          let (start, stop) := skipped.getD (lexeme.start, lexeme.start)
          if lexeme.stop.offset ≠ stop.offset then
            s.run before fuel true lexeme.stop (some (start, lexeme.stop))
          else if lexeme.stop.isEnd then garbage before start stop
          else
            let next := lexeme.stop.next
            s.run before fuel true next (some (start, next))

end Lookahead

/-- The next token for a head. -/
def ParseM.lookahead (v : Nat) : ParseM Tree := do
  let tables ← read
  let h ← head v
  let known := tables.knownIn h.state
  let wanted := tables.wantedIn h.state
  let wantedAnywhere := tables.wantedIn 0
  let actions := (← state h.state).actionsAt
  let leadsOn (t : Token) : Bool :=
    match (actions t.number).getLast? with
    | some (.shift next _) => next != h.state
    | some .shiftExtra => false
    | _ => h.state != 0
  let search : Lookahead.Search := {
    knows t := known.contains t.number
    wants t := wanted.contains t.number
    wantsAnywhere t := wantedAnywhere.contains t.number
    allowsEmpty t := h.hasAdvanced && leadsOn t
    layout := h.layout }
  return search.run h.place (2 * h.place.left + 4) (h.state == 0) h.place none

end ImportClosure.Python
