import LayoutCheck.Specification.Nested
import LayoutCheck.Specification.SelfDescribing

/-!
The dialects of specification documents, and which one a document is in.
-/

namespace LayoutCheck.Specification

open Yaml (Entries)

/-- How a document is read; `auto` finds out from the document. -/
inductive Dialect where
  | auto
  | nested
  | selfDescribing
  deriving DecidableEq, Repr

namespace Dialect

def text : Dialect → String
  | auto => "auto"
  | nested => "nested"
  | selfDescribing => "self-describing"

/-- A document with a name or a type at its top level describes itself. -/
def detect (entries : Entries) : Dialect :=
  let has (field : Field) : Bool := (SelfDescribing.field? entries field).isSome
  if has .name || has .type then selfDescribing else nested

/-- The tree that a top-level mapping declares. -/
def parseTree (dialect : Dialect) (entries : Entries) : Parse Tree :=
  match dialect with
  | nested => Nested.parseTree entries
  | selfDescribing => SelfDescribing.parseTree entries
  | auto => do
    Log.debug s!"Detected specification dialect: {(detect entries).text}"
    match detect entries with
    | selfDescribing => SelfDescribing.parseTree entries
    | _ => Nested.parseTree entries

end Dialect

end LayoutCheck.Specification
