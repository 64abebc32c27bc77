import ImportClosure.Module.Record

/-!
# The cache of built modules

At most one module is kept for an identity, and the first one stays. `get?` is the view that everything else is said
through; `sorted` lists the modules by identity, whatever the order in which they came.
-/

namespace ImportClosure

/-- The modules that have been built, in the order in which they came. -/
structure Cache (α : Type) where
  modules : List α

namespace Cache

variable {α : Type} [Handle α]

/-- A cache without modules. -/
def empty : Cache α :=
  ⟨[]⟩

/-- The module that is kept for an identity. -/
def find? (c : Cache α) (identity : Identity) : Option α :=
  c.modules.find? fun m => Handle.isOf m identity

/-- The module of this name at this file. -/
def get? (c : Cache α) (name : ModuleName) (file : ModuleFile) : Option α :=
  c.find? ⟨name, file.place⟩

/-- Adds a module unless one is kept for its identity, and tells which one is kept. -/
def add (c : Cache α) (m : α) : α × Cache α :=
  match c.find? (Handle.identity m) with
  | some kept => (kept, c)
  | none => (m, ⟨c.modules ++ [m]⟩)

/-- The number of modules. -/
def size (c : Cache α) : Nat :=
  c.modules.length

/-- The modules in the order of their identities. -/
def sorted (c : Cache α) : List α :=
  c.modules.mergeSort fun a b => !(Handle.identity b).lt (Handle.identity a)

end Cache

end ImportClosure
