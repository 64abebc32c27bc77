/-!
# TOML values

What a TOML document is made of. Numbers and times are kept as they are written.
-/

namespace ImportClosure.Toml

/-- How a table is written: between braces, by dotted keys, which may add to it later, or under headers. -/
inductive TableStyle where
  | inline
  | dotted
  | headed
  deriving DecidableEq

/-- A TOML value. -/
inductive Value where
  | string (text : String)
  | boolean (b : Bool)
  | number (written : String)
  | time (written : String)
  | array (items : List Value)
  | table (style : TableStyle) (entries : List (String × Value))

/-- Keys with their values, in the order of the document. -/
abbrev Entries := List (String × Value)

/-- A part of a document under one header. -/
structure Section where
  /-- The keys of the header, none for what stands before the first header. -/
  header : List String := []
  /-- Whether the header names an item of an array. -/
  isItem : Bool := false
  entries : Entries := []

/-- Adds a value under a dotted key. The tables on the way have to be dotted ones. -/
def Entries.add (value : Value) : List String → Entries → Option Entries
  | [], _ => none
  | [key], entries => some (entries ++ [(key, value)])
  | key :: next :: more, entries =>
    match entries.findIdx? fun entry => entry.1 == key with
    | none => do return entries ++ [(key, .table .dotted (← Entries.add value (next :: more) []))]
    | some i =>
      match entries[i]? with
      | some (_, .table .dotted inner) => do
        return entries.set i (key, .table .dotted (← Entries.add value (next :: more) inner))
      | _ => none

end ImportClosure.Toml
