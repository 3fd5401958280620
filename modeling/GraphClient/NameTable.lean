/-!
# Numbered names

A `NameTable` gives each name the number of its first occurrence.
-/

namespace GraphClient

/-- The names that have numbers. -/
structure NameTable where
  names : List String
deriving DecidableEq

namespace NameTable

def empty : NameTable := ⟨[]⟩

/-- Numbers have 32 bits. -/
def number (index : Nat) : Nat := index % 4294967296

def intern (table : NameTable) (name : String) : Nat × NameTable :=
  match table.names.idxOf? name with
  | some index => (number index, table)
  | none => (number table.names.length, ⟨table.names ++ [name]⟩)

/-- The name of a number; a number of another table gives the empty name. -/
def get (table : NameTable) (number : Nat) : String :=
  table.names.getD number ""

def internAll (table : NameTable) : List String → List Nat × NameTable
  | [] => ([], table)
  | name :: rest =>
    let (number, next) := table.intern name
    let (numbers, last) := next.internAll rest
    (number :: numbers, last)

end NameTable

end GraphClient
