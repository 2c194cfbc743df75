import LayoutCheck.Attempt
import LayoutCheck.Yaml.Token

/-!
The ways in which a specification document declares no tree.
-/

namespace LayoutCheck.Specification

/-- The fields of a node that describes itself. -/
inductive Field where
  | name
  | type
  | description
  | content
  deriving DecidableEq, Repr

namespace Field

def text : Field → String
  | name => "name"
  | type => "type"
  | description => "description"
  | content => "content"

end Field

/-- What a field should have been. -/
inductive Expected where
  | string
  | nodeList
  | nodeMappings
  deriving DecidableEq, Repr

namespace Expected

def text : Expected → String
  | string => "a string"
  | nodeList => "a list of nodes"
  | nodeMappings => "a list of node mappings"

end Expected

inductive ParseError where
  | malformed (cause : Yaml.SyntaxError)
  | emptyDocument
  | topLevelNotMapping
  | nonStringKey (location : String)
  | missingField (location : String) (field : Field)
  | invalidField (location : String) (field : Field) (expected : Expected)
  | invalidName (location name : String)
  | rootNotDirectory (name : String)
  deriving DecidableEq, Repr

namespace ParseError

def message : ParseError → String
  | malformed _ => "Failed to parse the specification document"
  | emptyDocument => "Specification document is empty"
  | topLevelNotMapping => "Top level of the specification should be a mapping"
  | nonStringKey location => s!"Entry under '{location}' has a non-string key"
  | missingField location field =>
    "Node at '" ++ location ++ "' is missing required field '" ++ field.text ++ "'"
  | invalidField location field expected =>
    "Field '" ++ field.text ++ "' of node at '" ++ location ++ "' should be " ++ expected.text
  | invalidName location name => s!"Name '{name}' under '{location}' is not a single path component"
  | rootNotDirectory name => s!"Root node '{name}' should be a directory"

/-- The text of the error behind this one, if there is one. -/
def cause? : ParseError → Option String
  | malformed cause => some cause.message
  | _ => none

end ParseError

/-- A reading of a document: what it declares, or why it declares nothing. -/
abbrev Parse (α : Type) := Attempt ParseError α

/-- A name that can be a component of a path and leads one level down. -/
def isEntryName (name : String) : Bool :=
  name ≠ "" && name ≠ "." && name ≠ ".." && !name.toList.contains '/'

/-- Refuses what is not the name of an entry. -/
def checkEntryName (location name : String) : Except ParseError Unit :=
  if isEntryName name then .ok () else .error (.invalidName location name)

theorem isEntryName_iff (name : String) :
    isEntryName name ↔ name ≠ "" ∧ name ≠ "." ∧ name ≠ ".." ∧ '/' ∉ name.toList := by
  simp [isEntryName, and_assoc]

end LayoutCheck.Specification
