import LayoutCheck.Specification.Dialect
import LayoutCheck.Yaml.Document

/-!
Specification documents as text.
-/

namespace LayoutCheck.Specification

open Yaml (Entries Value)

/-- The documents that a text holds. -/
def documents (text : String) : Except ParseError (List Value) :=
  (Yaml.readDocuments text).mapError .malformed

/-- The top-level mapping of the first document. -/
def topLevel (documents : List Value) : Except ParseError Entries :=
  match documents with
  | [] => .error .emptyDocument
  | .mapping entries :: _ => .ok entries
  | _ :: _ => .error .topLevelNotMapping

/-- The tree that a text declares. All of it must be well-formed; its first document counts. -/
def parse (dialect : Dialect) (text : String) : Parse Tree := do
  let entries ← topLevel (← documents text)
  dialect.parseTree entries

end LayoutCheck.Specification
