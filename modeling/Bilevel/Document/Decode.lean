import Bilevel.Document.Assembly

/-!
# Documents

Decoding a stream gives its pages and dictionaries, and says which pages failed. Segments that
several streams share are decoded once, beforehand.
-/

namespace Bilevel

/-- A decoded stream. -/
structure Document where
  /-- The pages that were decoded, in the order in which they ended. -/
  pages : Array Page
  failures : Array PageFailure
  /-- The symbol dictionaries, by the numbers of their segments. -/
  dictionaries : Numbered SymbolDictionary

/-- Segments that several streams share. -/
structure Globals where
  store : Store
  failures : Array PageFailure

namespace Globals

/-- Decode shared segments. Pages among them are dropped. -/
def ofBytes (settings : DecodeSettings) (data : Bytes) : Globals :=
  let a := Assembly.run settings none {} (Stream.embedded data)
  ⟨a.store, a.failures⟩

/-- The symbol dictionary that the segment with a given number holds. -/
def symbolDictionary? (globals : Globals) (segment : Nat) : Option SymbolDictionary :=
  globals.store.dictionaries[segment]?

end Globals

namespace Document

/-- The first page with a given number. -/
def page? (document : Document) (number : Nat) : Option Page :=
  document.pages.find? (·.number == number)

/-- The symbol dictionary that the segment with a given number holds. -/
def symbolDictionary? (document : Document) (segment : Nat) : Option SymbolDictionary :=
  document.dictionaries[segment]?

/-- All symbol dictionaries with the numbers of their segments, in ascending order. -/
def symbolDictionaries (document : Document) : List (Nat × SymbolDictionary) :=
  document.dictionaries.toList

/-- What comes of the items of a stream. -/
def ofItems (settings : DecodeSettings) (globals : Option Globals) (items : List StreamItem) :
    Document :=
  let a := Assembly.run settings (globals.map (·.store)) {} items
  ⟨a.pages, a.failures, a.store.dictionaries⟩

/-- A document without any page is an error if something failed: the first failure. -/
def check (document : Document) : Except DecodeError Document :=
  if document.pages.isEmpty then
    match document.failures[0]? with
    | some failure => .error failure.error
    | none => .ok document
  else .ok document

/-- A document that isn't an error is as it was decoded. -/
theorem eq_of_check {document checked : Document} (h : document.check = .ok checked) :
    checked = document := by
  unfold check at h
  split at h
  · split at h
    · cases h
    · exact (Except.ok.inj h).symm
  · exact (Except.ok.inj h).symm

end Document

/-- Decode a stream, which can refer to segments that were shared beforehand. -/
def decode (settings : DecodeSettings) (globals : Option Globals) (data : Bytes) :
    Except DecodeError Document :=
  (Document.ofItems settings globals (Stream.embedded data)).check

/-- Decode a file. -/
def decodeFile (settings : DecodeSettings) (data : Bytes) : Except DecodeError Document := do
  (Document.ofItems settings none (← Stream.file data)).check

end Bilevel
