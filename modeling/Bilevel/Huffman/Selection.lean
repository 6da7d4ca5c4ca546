import Bilevel.Huffman.Standard

/-!
# Selecting Huffman tables

The header of a segment says for every kind of value with which table it is coded: with one of some
standard tables, or with the next of the tables that the stream defines and the segment refers to.
-/

namespace Bilevel.Huffman

/-- The table for one kind of value. -/
inductive Selection where
  | standard (number : Nat)
  | custom
  deriving DecidableEq, Repr

namespace Selection

/-- The meaning of a selection field: 3 for a table that the stream defines, otherwise a place in
a list of standard tables. -/
def ofField (field : Nat) (standardNumbers : List Nat) : Except DecodeError Selection :=
  if field = 3 then .ok custom
  else match standardNumbers[field]? with
    | some number => .ok (standard number)
    | none => .error (.huffman .invalidSelection)

/-- The table of a selection, and the tables of the stream that are left for later selections. -/
def resolve (selection : Selection) (tables : List Table) :
    Except DecodeError (Table × List Table) :=
  match selection, tables with
  | standard number, tables => do return (← standardTable number, tables)
  | custom, table :: rest => .ok (table, rest)
  | custom, [] => .error (.huffman .missingTables)

end Selection
end Bilevel.Huffman
