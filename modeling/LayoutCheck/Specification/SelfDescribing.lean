import LayoutCheck.Specification.Error
import LayoutCheck.Tree
import LayoutCheck.Yaml.Value

/-!
Documents in which each node says its name, its type, its description and its content.

A node of type `dir` is a directory of the nodes in its content, one of any other type a file. Other
keys do not matter. The fields are checked in a fixed order, and the first offence is reported.
-/

namespace LayoutCheck.Specification.SelfDescribing

open Yaml (Entries Value)

def field? (entries : Entries) (field : Field) : Option Value :=
  entries.value? (.string field.text)

/-- The text of a field, which may be left out. -/
def optionalText (entries : Entries) (field : Field) (location : String) :
    Except ParseError (Option String) :=
  match field? entries field with
  | none => .ok none
  | some (.scalar (.string text)) => .ok (some text)
  | some _ => .error (.invalidField location field .string)

/-- The text of a field that must be there. -/
def requiredText (entries : Entries) (field : Field) (location : String) :
    Except ParseError String := do
  match ← optionalText entries field location with
  | some text => return text
  | none => throw (.missingField location field)

/-- A place in the content of a directory: the path of the directory, and an index. -/
abbrev Place := Option (String × Nat)

/-- The location of a node whose name is not known. -/
def placeText : Place → String
  | none => "<root>"
  | some (above, index) => above ++ "/content[" ++ Nat.repr index ++ "]"

/-- The location of a node with a name. -/
def namedPlaceText (name : String) : Place → String
  | none => name
  | some (above, _) => above ++ "/" ++ name

/-- What a node says of itself, without its content. -/
structure Header where
  name : String
  isDirectory : Bool
  description : Option String
  location : String
  deriving DecidableEq, Repr

def directoryType : String := "dir"

/-- Reads the name, the type and the description of a node. -/
def readHeader (place : Place) (entries : Entries) : Except ParseError Header := do
  let name ← requiredText entries .name (placeText place)
  checkEntryName (placeText place) name
  let location := namedPlaceText name place
  let type ← requiredText entries .type location
  let description ← optionalText entries .description location
  return ⟨name, type = directoryType, description, location⟩

def Header.attach (h : Header) (t : Tree) : Tree :=
  match h.description with
  | some text => t.describe text
  | none => t

/-- A node that is no directory is a file, whatever its content. -/
def file (h : Header) (entries : Entries) : Parse Tree := do
  if (field? entries .content).isSome then
    Log.debug s!"Ignoring 'content' of non-directory node '{h.location}'"
  return h.attach (.leaf h.name)

mutual

/-- What a value declares as a node at a place. -/
def node (place : Place) : Value → Parse Tree
  | .mapping entries => do
    let h ← readHeader place entries
    if h.isDirectory then
      let children ← content h.location entries
      return h.attach (← Tree.branchLogged h.name children)
    else file h entries
  | .scalar _ => throw (.invalidField (placeText place) .content .nodeMappings)
  | .sequence _ => throw (.invalidField (placeText place) .content .nodeMappings)
  | .tagged .. => throw (.invalidField (placeText place) .content .nodeMappings)

/-- The content of the directory that the entries describe, empty if the field is left out. -/
def content (location : String) : List (Value × Value) → Parse (List Tree)
  | [] => return []
  | e :: es =>
    if e.1 = .string Field.content.text then contentEntry location e else content location es

def contentEntry (location : String) : Value × Value → Parse (List Tree)
  | (_, value) => contentValue location value

def contentValue (location : String) : Value → Parse (List Tree)
  | .sequence items => nodes location 0 items
  | .scalar _ => throw (.invalidField location .content .nodeList)
  | .mapping _ => throw (.invalidField location .content .nodeList)
  | .tagged .. => throw (.invalidField location .content .nodeList)

/-- The nodes of a content list from an index on. -/
def nodes (location : String) (index : Nat) : List Value → Parse (List Tree)
  | [] => return []
  | v :: vs => do
    let t ← node (some (location, index)) v
    let ts ← nodes location (index + 1) vs
    return t :: ts

end

/-- The tree that a top-level mapping declares; its root must be a directory. -/
def parseTree (entries : Entries) : Parse Tree := do
  let root ← node none (.mapping entries)
  if root.isDirectory then return root
  else throw (.rootNotDirectory root.name)

end LayoutCheck.Specification.SelfDescribing
