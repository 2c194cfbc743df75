import LayoutCheck.Yaml.Source

/-!
The tokens of a YAML stream and the ways in which a stream is malformed.

Block collections have no closing character; their ends are tokens all the same, as are the starts
of keys that no indicator announces.
-/

namespace LayoutCheck.Yaml

/-- How a scalar is written, as far as it matters to what it means. -/
inductive Presentation where
  | plain
  | quoted
  deriving DecidableEq, Repr

inductive Token where
  | versionDirective
  | tagDirective (handle expansion : String)
  | documentStart
  | documentEnd
  | blockSequenceStart
  | blockMappingStart
  | blockEnd
  | flowSequenceStart
  | flowSequenceEnd
  | flowMappingStart
  | flowMappingEnd
  | blockEntry
  | flowEntry
  | key
  | value
  | alias (name : String)
  | anchor (name : String)
  | tag (handle suffix : String)
  | scalar (presentation : Presentation) (text : String)
  deriving DecidableEq, Repr

/-- What is wrong with a stream. -/
inductive Problem where
  | tabIndentation
  | invalidIndentation
  | commentWithoutBlank
  | unexpectedCharacter
  | blockEntryInFlow
  | blockEntryNotAllowed
  | keyNotAllowed
  | valueNotAllowed
  | keyWithoutValue
  | keyWithoutBlank
  | valueWithoutBlank
  | keyOnEarlierLine
  | flowTooDeep
  | malformedDirective
  | malformedTag
  | malformedUriEscape
  | namelessAnchor
  | unclosedQuote
  | markerInQuote
  | unknownEscape
  | contentAfterQuote
  | malformedBlockHeader
  | contentAfterMarker
  | repeatedVersion
  | undeclaredTagHandle
  | unknownAnchor
  | documentStartExpected
  | directiveInDocument
  | contentExpected
  | keyExpected
  | entryExpected
  deriving DecidableEq, Repr

namespace Problem

def text : Problem → String
  | tabIndentation => "a tab where blanks should indent"
  | invalidIndentation => "invalid indentation"
  | commentWithoutBlank => "a comment without a blank before it"
  | unexpectedCharacter => "a character that starts nothing"
  | blockEntryInFlow => "a block entry inside a flow collection"
  | blockEntryNotAllowed => "a block entry in a place where none can start"
  | keyNotAllowed => "a key in a place where none can start"
  | valueNotAllowed => "a value in a place where none can start"
  | keyWithoutValue => "a key without a value"
  | keyWithoutBlank => "a key indicator without a blank after it"
  | valueWithoutBlank => "a value indicator without a blank after it"
  | keyOnEarlierLine => "a value indicator below the line of its key"
  | flowTooDeep => "flow collections that are nested too deep"
  | malformedDirective => "a malformed directive"
  | malformedTag => "a malformed tag"
  | malformedUriEscape => "a malformed escape in a tag"
  | namelessAnchor => "an anchor or alias without a name"
  | unclosedQuote => "a quoted scalar without an end"
  | markerInQuote => "a document marker inside a quoted scalar"
  | unknownEscape => "an escape that stands for no character"
  | contentAfterQuote => "content right after a quoted scalar"
  | malformedBlockHeader => "a malformed block scalar header"
  | contentAfterMarker => "content after a document end marker"
  | repeatedVersion => "a second version directive"
  | undeclaredTagHandle => "a tag handle that is not declared"
  | unknownAnchor => "an alias of an unknown anchor"
  | documentStartExpected => "directives without a document"
  | directiveInDocument => "a directive without a document end before it"
  | contentExpected => "a node without content"
  | keyExpected => "something other than a key in a block mapping"
  | entryExpected => "something other than an entry in a collection"

end Problem

/-- A problem and, if it is one of the text rather than of the tokens, its place. -/
structure SyntaxError where
  problem : Problem
  position : Option Position
  deriving DecidableEq, Repr

namespace SyntaxError

def message (e : SyntaxError) : String :=
  match e.position with
  | some p =>
    e.problem.text ++ " at line " ++ Nat.repr (p.line + 1) ++ " column " ++ Nat.repr (p.column + 1)
  | none => e.problem.text

end SyntaxError

/-- Fails at the next character. -/
def Source.fail {α : Type} (s : Source) (problem : Problem) : Except SyntaxError α :=
  .error ⟨problem, some s.position⟩

end LayoutCheck.Yaml
