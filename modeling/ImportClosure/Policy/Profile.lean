import ImportClosure.Json.Read
import ImportClosure.Policy.Hooks

/-!
# Profiles

What an earlier run found out about the modules that were used. A name in both lists is excluded. A profile is written
as an object with the two lists, or as an array of them; keys that are not known are passed over, and a key that is
known stands once at most.
-/

namespace ImportClosure

/-- The modules that a profiled run says to include and to exclude. -/
structure ProfileData where
  included : List ModuleName := []
  excluded : List ModuleName := []

namespace ProfileData

/-- The profile that answers by name, whatever kind the module is of. -/
def profile (p : ProfileData) : Profile where
  decide? name _ :=
    if p.excluded.contains name then some false
    else if p.included.contains name then some true
    else none

/-- A name. -/
def name? : Json → Option ModuleName
  | .string written => (Quoted.decode? written).map ModuleName.mk
  | _ => none

/-- A list of names, each of them once. -/
def names? : Json → Option (List ModuleName)
  | .array items =>
    (items.mapM name?).map List.eraseDups
  | _ => none

/-- The names under a key that may be missing. -/
def namesUnder? (key : String) (fields : List (String × Json)) : Option (List ModuleName) :=
  match fields.filter fun field => field.1 == key with
  | [] => some []
  | [field] => names? field.2
  | _ => none

/-- The profile that a document holds. -/
def ofJson? : Json → Option ProfileData
  | .object fields => do
    let fields ← fields.mapM fun field => (Quoted.decode? field.1).map fun key => (key, field.2)
    return ⟨← namesUnder? "included" fields, ← namesUnder? "excluded" fields⟩
  | .array [] => some {}
  | .array [included] => do return ⟨← names? included, []⟩
  | .array [included, excluded] => do return ⟨← names? included, ← names? excluded⟩
  | _ => none

/-- Reads the profile in a file. -/
def load (t : FileTree) (path : Path) : Except Error ProfileData :=
  match t.readText path with
  | .error cause => .error (.io cause)
  | .ok text =>
    match (Json.read? text).bind ofJson? with
    | some p => .ok p
    | none => .error .json

end ProfileData

end ImportClosure
