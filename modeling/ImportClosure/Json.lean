import ImportClosure.Json.Quoted
import ImportClosure.Text.Fields

/-!
# JSON documents

A document keeps its strings and numbers as they are written, so that what nobody looks at needs no meaning. Objects
keep their fields in order. There are two layouts, one without any blank and one with a line for every item.
-/

namespace ImportClosure

/-- A JSON document. -/
inductive Json where
  | null
  | bool (b : Bool)
  | number (written : String)
  | string (written : String)
  | array (items : List Json)
  | object (fields : List (String × Json))

namespace Json

/-- The document of a text. -/
def ofText (s : String) : Json :=
  string (Quoted.encode s)

/-- The document of a natural number. -/
def ofNat (n : Nat) : Json :=
  number (Text.decimal n)

/-- An object with these keys. -/
def record (fields : List (String × Json)) : Json :=
  object (fields.map fun field => (Quoted.encode field.1, field.2))

/-- Texts one after the other with a separator between two neighbours. -/
def between (separator : String) : List String → String
  | [] => ""
  | [s] => s
  | s :: more => s ++ separator ++ between separator more

/-- A word between quotes. -/
def quoted (written : String) : String :=
  "\"" ++ written ++ "\""

mutual

/-- The layout without blanks. -/
def compact : Json → String
  | null => "null"
  | bool b => if b then "true" else "false"
  | number written => written
  | string written => quoted written
  | array items => "[" ++ between "," (compactItems items) ++ "]"
  | object fields => "\x7b" ++ between "," (compactFields fields) ++ "\x7d"

/-- The items of an array without blanks. -/
def compactItems : List Json → List String
  | [] => []
  | item :: more => item.compact :: compactItems more

/-- The fields of an object without blanks. -/
def compactFields : List (String × Json) → List String
  | [] => []
  | (key, value) :: more => (quoted key ++ ":" ++ value.compact) :: compactFields more

end

/-- The blanks in front of a line at this depth. -/
def indent (depth : Nat) : String :=
  String.ofList (List.replicate (2 * depth) ' ')

/-- Lines between an opening and a closing bracket; without lines the brackets stand together. -/
def block (opening closing : String) (depth : Nat) (lines : List String) : String :=
  if lines.isEmpty then opening ++ closing
  else
    opening ++ "\n" ++ between ",\n" (lines.map fun line => indent (depth + 1) ++ line) ++ "\n" ++ indent depth ++
      closing

mutual

/-- The layout with a line for every item, begun at this depth. -/
def layout (depth : Nat) : Json → String
  | array items => block "[" "]" depth (layoutItems (depth + 1) items)
  | object fields => block "\x7b" "\x7d" depth (layoutFields (depth + 1) fields)
  | null => "null"
  | bool b => if b then "true" else "false"
  | number written => written
  | string written => quoted written

/-- The items of an array, a line each. -/
def layoutItems (depth : Nat) : List Json → List String
  | [] => []
  | item :: more => layout depth item :: layoutItems depth more

/-- The fields of an object, a line each. -/
def layoutFields (depth : Nat) : List (String × Json) → List String
  | [] => []
  | (key, value) :: more => (quoted key ++ ": " ++ layout depth value) :: layoutFields depth more

end

/-- The layout with a line for every item. -/
def pretty (j : Json) : String :=
  layout 0 j

end Json

end ImportClosure
