import Bilevel.Huffman.Table

/-!
# The standard Huffman tables

Fifteen tables that every stream can use without defining them. They are numbered from 1 on.
-/

namespace Bilevel.Huffman.Standard

/-- Standard table 1. -/
def tableA : List Line :=
  [⟨1, .values 0 4⟩, ⟨2, .values 16 8⟩, ⟨3, .values 272 16⟩, ⟨3, .upper 65808⟩]

/-- Standard table 2. -/
def tableB : List Line :=
  [⟨1, .values 0 0⟩, ⟨2, .values 1 0⟩, ⟨3, .values 2 0⟩, ⟨4, .values 3 3⟩, ⟨5, .values 11 6⟩,
   ⟨6, .upper 75⟩, ⟨6, .outOfBand⟩]

/-- Standard table 3. -/
def tableC : List Line :=
  [⟨8, .values (-256) 8⟩, ⟨1, .values 0 0⟩, ⟨2, .values 1 0⟩, ⟨3, .values 2 0⟩, ⟨4, .values 3 3⟩,
   ⟨5, .values 11 6⟩, ⟨8, .lower (-257)⟩, ⟨7, .upper 75⟩, ⟨6, .outOfBand⟩]

/-- Standard table 4. -/
def tableD : List Line :=
  [⟨1, .values 1 0⟩, ⟨2, .values 2 0⟩, ⟨3, .values 3 0⟩, ⟨4, .values 4 3⟩, ⟨5, .values 12 6⟩,
   ⟨5, .upper 76⟩]

/-- Standard table 5. -/
def tableE : List Line :=
  [⟨7, .values (-255) 8⟩, ⟨1, .values 1 0⟩, ⟨2, .values 2 0⟩, ⟨3, .values 3 0⟩, ⟨4, .values 4 3⟩,
   ⟨5, .values 12 6⟩, ⟨7, .lower (-256)⟩, ⟨6, .upper 76⟩]

/-- Standard table 6. -/
def tableF : List Line :=
  [⟨5, .values (-2048) 10⟩, ⟨4, .values (-1024) 9⟩, ⟨4, .values (-512) 8⟩, ⟨4, .values (-256) 7⟩,
   ⟨5, .values (-128) 6⟩, ⟨5, .values (-64) 5⟩, ⟨4, .values (-32) 5⟩, ⟨2, .values 0 7⟩,
   ⟨3, .values 128 7⟩, ⟨3, .values 256 8⟩, ⟨4, .values 512 9⟩, ⟨4, .values 1024 10⟩,
   ⟨6, .lower (-2049)⟩, ⟨6, .upper 2048⟩]

/-- Standard table 7. -/
def tableG : List Line :=
  [⟨4, .values (-1024) 9⟩, ⟨3, .values (-512) 8⟩, ⟨4, .values (-256) 7⟩, ⟨5, .values (-128) 6⟩,
   ⟨5, .values (-64) 5⟩, ⟨4, .values (-32) 5⟩, ⟨4, .values 0 5⟩, ⟨5, .values 32 5⟩,
   ⟨5, .values 64 6⟩, ⟨4, .values 128 7⟩, ⟨3, .values 256 8⟩, ⟨3, .values 512 9⟩,
   ⟨3, .values 1024 10⟩, ⟨5, .lower (-1025)⟩, ⟨5, .upper 2048⟩]

/-- Standard table 8. -/
def tableH : List Line :=
  [⟨8, .values (-15) 3⟩, ⟨9, .values (-7) 1⟩, ⟨8, .values (-5) 1⟩, ⟨9, .values (-3) 0⟩,
   ⟨7, .values (-2) 0⟩, ⟨4, .values (-1) 0⟩, ⟨2, .values 0 1⟩, ⟨5, .values 2 0⟩, ⟨6, .values 3 0⟩,
   ⟨3, .values 4 4⟩, ⟨6, .values 20 1⟩, ⟨4, .values 22 4⟩, ⟨4, .values 38 5⟩, ⟨5, .values 70 6⟩,
   ⟨5, .values 134 7⟩, ⟨6, .values 262 7⟩, ⟨7, .values 390 8⟩, ⟨6, .values 646 10⟩,
   ⟨9, .lower (-16)⟩, ⟨9, .upper 1670⟩, ⟨2, .outOfBand⟩]

/-- Standard table 9. -/
def tableI : List Line :=
  [⟨8, .values (-31) 4⟩, ⟨9, .values (-15) 2⟩, ⟨8, .values (-11) 2⟩, ⟨9, .values (-7) 1⟩,
   ⟨7, .values (-5) 1⟩, ⟨4, .values (-3) 1⟩, ⟨3, .values (-1) 1⟩, ⟨3, .values 1 1⟩,
   ⟨5, .values 3 1⟩, ⟨6, .values 5 1⟩, ⟨3, .values 7 5⟩, ⟨6, .values 39 2⟩, ⟨4, .values 43 5⟩,
   ⟨4, .values 75 6⟩, ⟨5, .values 139 7⟩, ⟨5, .values 267 8⟩, ⟨6, .values 523 8⟩,
   ⟨7, .values 779 9⟩, ⟨6, .values 1291 11⟩, ⟨9, .lower (-32)⟩, ⟨9, .upper 3339⟩, ⟨2, .outOfBand⟩]

/-- Standard table 10. -/
def tableJ : List Line :=
  [⟨7, .values (-21) 4⟩, ⟨8, .values (-5) 0⟩, ⟨7, .values (-4) 0⟩, ⟨5, .values (-3) 0⟩,
   ⟨2, .values (-2) 2⟩, ⟨5, .values 2 0⟩, ⟨6, .values 3 0⟩, ⟨7, .values 4 0⟩, ⟨8, .values 5 0⟩,
   ⟨2, .values 6 6⟩, ⟨5, .values 70 5⟩, ⟨6, .values 102 5⟩, ⟨6, .values 134 6⟩,
   ⟨6, .values 198 7⟩, ⟨6, .values 326 8⟩, ⟨6, .values 582 9⟩, ⟨6, .values 1094 10⟩,
   ⟨7, .values 2118 11⟩, ⟨8, .lower (-22)⟩, ⟨8, .upper 4166⟩, ⟨2, .outOfBand⟩]

/-- Standard table 11. -/
def tableK : List Line :=
  [⟨1, .values 1 0⟩, ⟨2, .values 2 1⟩, ⟨4, .values 4 0⟩, ⟨4, .values 5 1⟩, ⟨5, .values 7 1⟩,
   ⟨5, .values 9 2⟩, ⟨6, .values 13 2⟩, ⟨7, .values 17 2⟩, ⟨7, .values 21 3⟩, ⟨7, .values 29 4⟩,
   ⟨7, .values 45 5⟩, ⟨7, .values 77 6⟩, ⟨7, .upper 141⟩]

/-- Standard table 12. -/
def tableL : List Line :=
  [⟨1, .values 1 0⟩, ⟨2, .values 2 0⟩, ⟨3, .values 3 1⟩, ⟨5, .values 5 0⟩, ⟨5, .values 6 1⟩,
   ⟨6, .values 8 1⟩, ⟨7, .values 10 0⟩, ⟨7, .values 11 1⟩, ⟨7, .values 13 2⟩, ⟨7, .values 17 3⟩,
   ⟨7, .values 25 4⟩, ⟨8, .values 41 5⟩, ⟨8, .upper 73⟩]

/-- Standard table 13. -/
def tableM : List Line :=
  [⟨1, .values 1 0⟩, ⟨3, .values 2 0⟩, ⟨4, .values 3 0⟩, ⟨5, .values 4 0⟩, ⟨4, .values 5 1⟩,
   ⟨3, .values 7 3⟩, ⟨6, .values 15 1⟩, ⟨6, .values 17 2⟩, ⟨6, .values 21 3⟩, ⟨6, .values 29 4⟩,
   ⟨6, .values 45 5⟩, ⟨7, .values 77 6⟩, ⟨7, .upper 141⟩]

/-- Standard table 14. -/
def tableN : List Line :=
  [⟨3, .values (-2) 0⟩, ⟨3, .values (-1) 0⟩, ⟨1, .values 0 0⟩, ⟨3, .values 1 0⟩, ⟨3, .values 2 0⟩]

/-- Standard table 15. -/
def tableO : List Line :=
  [⟨7, .values (-24) 4⟩, ⟨6, .values (-8) 2⟩, ⟨5, .values (-4) 1⟩, ⟨4, .values (-2) 0⟩,
   ⟨3, .values (-1) 0⟩, ⟨1, .values 0 0⟩, ⟨3, .values 1 0⟩, ⟨4, .values 2 0⟩, ⟨5, .values 3 1⟩,
   ⟨6, .values 5 2⟩, ⟨7, .values 9 4⟩, ⟨7, .lower (-25)⟩, ⟨7, .upper 25⟩]

/-- The lines of all standard tables, in order. -/
def allLines : List (List Line) :=
  [tableA, tableB, tableC, tableD, tableE, tableF, tableG, tableH, tableI,
   tableJ, tableK, tableL, tableM, tableN, tableO]

/-- All standard tables, in order. -/
def tables : Array (Except DecodeError Table) := (allLines.map Table.build).toArray

end Standard

/-- The standard table with a given number. -/
def standardTable (number : Nat) : Except DecodeError Table :=
  if number = 0 then .error (.huffman (.unknownStandardTable number))
  else Standard.tables.getD (number - 1) (.error (.huffman (.unknownStandardTable number)))

end Bilevel.Huffman
