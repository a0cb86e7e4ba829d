import QasmCircuit.Fault

/-!
# Tokens of data files

The layout of a data file in block style is its indentation. Tokens say it in words: where a block of
items or of entries begins, and where one ends. A text that cannot be read to its end has one last token
that says why.
-/

namespace QasmCircuit.Yaml

/-- A token of a data file. -/
inductive Token where
  /-- The mark in front of a document. -/
  | documentStart
  /-- The mark behind a document. -/
  | documentEnd
  /-- The first item of an indented block of items follows. -/
  | blockSequence
  /-- The first entry of an indented block of entries follows. -/
  | blockMapping
  | blockEnd
  | flowSequence
  | flowSequenceEnd
  | flowMapping
  | flowMappingEnd
  /-- The comma between the members of a collection in brackets. -/
  | comma
  /-- The dash in front of an item. -/
  | item
  /-- The key of an entry follows. -/
  | key
  /-- The value of an entry follows. -/
  | value
  /-- A scalar, and whether it has no quotes. -/
  | scalar (text : String) (plain : Bool)
  /-- Nothing can be read from here on. -/
  | broken (fault : Fault)
deriving DecidableEq, Repr

end QasmCircuit.Yaml
