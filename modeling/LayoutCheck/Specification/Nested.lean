import LayoutCheck.Specification.Error
import LayoutCheck.Tree
import LayoutCheck.Yaml.Value

/-!
Documents in which nesting shows the tree.

A mapping is a directory with an entry for each key. A key with a string is a file with that
description, a key with anything else a file without one.
-/

namespace LayoutCheck.Specification.Nested

open Yaml (Entries Value)

/-- The name of the root, which such documents do not give. -/
def rootName : String := "src"

mutual

/-- What a value declares under a name. -/
def declare (location name : String) : Value → Parse Tree
  | .mapping entries => do
    let children ← declareAll location entries
    Tree.branchLogged name children
  | .scalar value =>
    match value with
    | .string text => return (Tree.leaf name).describe text
    | _ => plainFile location name
  | .sequence _ => plainFile location name
  | .tagged .. => plainFile location name
where
  plainFile (location name : String) : Parse Tree := do
    Log.debug s!"Treating non-string value at '{location}' as a plain file"
    return .leaf name

/-- What the entries of a mapping declare, in their order. -/
def declareAll (location : String) : List (Value × Value) → Parse (List Tree)
  | [] => return []
  | e :: es => do
    let t ← declareEntry location e
    let ts ← declareAll location es
    return t :: ts

def declareEntry (location : String) : Value × Value → Parse Tree
  | (key, value) =>
    match key with
    | .scalar (.string name) => do
      checkEntryName location name
      declare (location ++ "/" ++ name) name value
    | _ => throw (.nonStringKey location)

end

/-- The declared tree stands under a key of its own if that is the only key. -/
def wrapped? : Entries → Option Entries
  | [(key, .mapping entries)] => if key = .string rootName then some entries else none
  | _ => none

/-- The tree that a top-level mapping declares. -/
def parseTree (entries : Entries) : Parse Tree := do
  match wrapped? entries with
  | some inner => do
    Log.debug s!"Using the '{rootName}' key as the declared tree"
    declare rootName rootName (.mapping inner)
  | none => declare rootName rootName (.mapping entries)

end LayoutCheck.Specification.Nested
