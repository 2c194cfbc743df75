import LayoutCheck.Yaml.Directive
import LayoutCheck.Yaml.Text.Block
import LayoutCheck.Yaml.Text.Plain
import LayoutCheck.Yaml.Text.Quoted

/-!
Reads the tokens of a stream.

Two things are not written out in a stream. The end of a block collection is where the indentation
falls back, so the indentations around the place that is read are kept. The start of a key is only
known when the colon behind it is met, so the place where one may have begun is kept, and the tokens
for the key and for the mapping that it opens are inserted there.
-/

namespace LayoutCheck.Yaml

/--
An indentation and the one around it. A block collection ends with a token of its own; the others
only demand that content is indented further than the collection.
-/
structure Indentation where
  outer : Int
  isBlock : Bool

/-- Where a key may have begun; it must turn out to be one if nothing else can stand there. -/
structure KeyStart where
  index : Nat
  position : Position
  required : Bool

structure Tokenizer where
  rest : Source
  tokens : Array Token
  /-- the column of the innermost collection -/
  indent : Int
  /-- the indentations that end where `indent` does, the innermost first -/
  indentations : List Indentation
  keyStart : Option KeyStart
  /-- the key starts outside each flow collection, the innermost first -/
  outerKeyStarts : List (Option KeyStart)
  /-- a key or a block entry may start here -/
  keyAllowed : Bool
  /-- behind a quoted scalar or flow collection a value may follow its colon directly -/
  adjacent : Option Position
  /-- the last key began in a flow mapping or had an indicator -/
  keyAnnounced : Bool
  /-- for each flow sequence whether a pair without braces is open in it, the innermost first -/
  openPairs : List Bool
  /-- how many tokens there were after the last property at the left margin -/
  marginProperty : Option Nat

namespace Tokenizer

def start (s : Source) : Tokenizer where
  rest := s
  tokens := #[]
  indent := -1
  indentations := []
  keyStart := none
  outerKeyStarts := []
  keyAllowed := true
  adjacent := none
  keyAnnounced := false
  openPairs := []
  marginProperty := none

/-- How many flow collections are open. -/
def depth (t : Tokenizer) : Nat := t.outerKeyStarts.length

def inFlow (t : Tokenizer) : Bool := decide (0 < t.depth)

def push (t : Tokenizer) (token : Token) : Tokenizer := { t with tokens := t.tokens.push token }

def insert (t : Tokenizer) (index : Nat) (token : Token) : Tokenizer :=
  { t with tokens := t.tokens.insertIdxIfInBounds index token }

def continueAt (t : Tokenizer) (rest : Source) : Tokenizer := { t with rest := rest }

def allowKey (t : Tokenizer) (allowed : Bool) : Tokenizer := { t with keyAllowed := allowed }

/-! ### Indentation -/

def innermostIsBlock (t : Tokenizer) : Bool :=
  match t.indentations with
  | i :: _ => i.isBlock
  | [] => false

/-- Ends the indentations to the right of the column. -/
def endIndentations (column indent : Int) (tokens : Array Token) :
    List Indentation → Int × Array Token × List Indentation
  | [] => (indent, tokens, [])
  | i :: is =>
    if column < indent then
      endIndentations column i.outer (if i.isBlock then tokens.push .blockEnd else tokens) is
    else (indent, tokens, i :: is)

/-- Ends the block collections to the right of the column. -/
def endBlocks (t : Tokenizer) (column : Int) : Tokenizer :=
  if t.inFlow then t
  else
    let (indent, tokens, indentations) := endIndentations column t.indent t.tokens t.indentations
    { t with indent := indent, tokens := tokens, indentations := indentations }

/-- Starts a block collection at the column, with its token at the end or at an index. -/
def beginBlock (t : Tokenizer) (column : Nat) (token : Token) (index : Option Nat) : Tokenizer :=
  if t.inFlow then t
  else
    let t :=
      match t.indentations with
      | i :: is =>
        if i.isBlock || decide ((column : Int) < t.indent) then t
        else { t with indent := i.outer, indentations := is }
      | [] => t
    if t.indent < (column : Int) then
      { t with
        indent := column
        indentations := ⟨t.indent, true⟩ :: t.indentations
        tokens := t.tokens.insertIdxIfInBounds (index.getD t.tokens.size) token }
    else t

/-- Demands that content is indented further than the block collection around it. -/
def deepen (t : Tokenizer) : Tokenizer :=
  if !t.inFlow && t.innermostIsBlock then
    { t with indent := t.indent + 1, indentations := ⟨t.indent, false⟩ :: t.indentations }
  else t

/-- Takes such demands back, up to the innermost block collection. -/
def dropDeepened (indent : Int) : List Indentation → Int × List Indentation
  | [] => (indent, [])
  | i :: is => if i.isBlock then (indent, i :: is) else dropDeepened i.outer is

def undeepen (t : Tokenizer) : Tokenizer :=
  let (indent, indentations) := dropDeepened t.indent t.indentations
  { t with indent := indent, indentations := indentations }

/-! ### Keys -/

/-- Remembers that a key may begin here. -/
def noteKeyStart (t : Tokenizer) : Tokenizer :=
  if t.keyAllowed then
    let required := !t.inFlow && decide (t.indent = t.rest.column) && t.innermostIsBlock
    { t with keyStart := some ⟨t.tokens.size, t.rest.position, required⟩ }
  else t

/-- Forgets where a key may have begun. -/
def dropKeyStart (t : Tokenizer) : Except SyntaxError Tokenizer :=
  if t.keyStart.any (·.required) then t.rest.fail .keyWithoutValue
  else .ok { t with keyStart := none }

/-- A key has at most so many characters before its colon. -/
def maxKeyLength : Nat := 1024

/-- Outside flow collections a key ends on the line where it began. -/
def expireKeyStart (t : Tokenizer) : Except SyntaxError Tokenizer :=
  match t.keyStart with
  | none => .ok t
  | some k =>
    let p := t.rest.position
    let isPast := k.position.line < p.line ∨ k.position.column + maxKeyLength < p.column
    if !t.inFlow && decide isPast then t.dropKeyStart
    else .ok t

/-! ### Gaps -/

/-- Skips to the next token; a key may start on a new line. -/
def skipGap (t : Tokenizer) : Except SyntaxError Tokenizer := do
  let limit := if t.indentations.isEmpty then none else some t.indent
  let (passed, rest) ← Yaml.skipGap limit false false t.rest
  return { t with rest := rest, keyAllowed := t.keyAllowed || passed && !t.inFlow }

/-- Skips the character of a token and what may follow it on its line. -/
def skipIndicator (t : Tokenizer) : Except SyntaxError Tokenizer := do
  let gap ← skipLineGap true t.rest.tail
  return t.continueAt gap.rest

/-! ### Document markers and directives -/

/-- Ends everything that is open outside flow collections. -/
def endContent (t : Tokenizer) : Except SyntaxError Tokenizer := do
  let t ← (t.endBlocks (-1)).dropKeyStart
  return t.allowKey false

def readDirectiveToken (t : Tokenizer) : Except SyntaxError Tokenizer := do
  let t ← t.endContent
  let (token, rest) ← readDirective t.rest.tail
  return (t.push token).continueAt rest

def readDocumentStart (t : Tokenizer) : Except SyntaxError Tokenizer := do
  let t ← t.endContent
  return (t.push .documentStart).continueAt (t.rest.drop 3)

/-- Only a comment may stand behind the end of a document. -/
def readDocumentEnd (t : Tokenizer) : Except SyntaxError Tokenizer := do
  let t ← t.endContent
  let gap ← skipLineGap true (t.rest.drop 3)
  if isBreakOrEnd (Source.char gap.rest) then return (t.push .documentEnd).continueAt gap.rest
  else Source.fail gap.rest .contentAfterMarker

/-! ### Flow collections -/

/-- So many flow collections may be open. -/
def maxDepth : Nat := 255

def openFlow (t : Tokenizer) (token : Token) : Except SyntaxError Tokenizer := do
  let t := t.noteKeyStart.deepen
  if maxDepth ≤ t.depth then t.rest.fail .flowTooDeep
  else
    let t := { t with keyStart := none, outerKeyStarts := t.keyStart :: t.outerKeyStarts }
    let t := if token = .flowMappingStart then { t with keyAnnounced := true }
      else { t with openPairs := false :: t.openPairs }
    let t ← t.skipIndicator
    return (t.push token).allowKey true

/--
Ends the pair without braces that is open in the innermost flow sequence. Where the pair began does
not count, so a comma between braces in its value ends it, too.
-/
def closePair (t : Tokenizer) : Tokenizer :=
  match t.openPairs with
  | true :: outer =>
    { t with keyAnnounced := false, openPairs := false :: outer }.push .flowMappingEnd
  | _ => t

/-- Goes back to the collection around a flow collection, if there is one. -/
def leaveFlow (t : Tokenizer) : Tokenizer :=
  match t.outerKeyStarts with
  | [] => t
  | keyStart :: outer => { t with keyStart := keyStart, outerKeyStarts := outer }

/-- Reads a closing bracket; whether it closes anything is for the reader of the tokens to say. -/
def closeFlow (t : Tokenizer) (token : Token) : Except SyntaxError Tokenizer := do
  let t ← t.dropKeyStart
  let t := t.leaveFlow.allowKey false
  let t :=
    if token = .flowSequenceEnd then
      let t := t.closePair
      { t with openPairs := t.openPairs.tail }
    else t
  let t ← t.skipIndicator
  let t := if t.inFlow then { t with adjacent := some t.rest.position } else t
  return t.push token

def readFlowEntry (t : Tokenizer) : Except SyntaxError Tokenizer := do
  let t ← t.dropKeyStart
  let t ← (t.allowKey true).closePair.skipIndicator
  return t.push .flowEntry

/-! ### Block entries, keys and values -/

def readBlockEntry (t : Tokenizer) : Except SyntaxError Tokenizer := do
  let column := t.rest.column
  if t.inFlow then t.rest.fail .blockEntryInFlow
  else if !t.keyAllowed then t.rest.fail .blockEntryNotAllowed
  else if t.marginProperty = some t.tokens.size && column = 0 && decide (-1 < t.indent) then
    t.rest.fail .invalidIndentation
  else
    let t := t.beginBlock column .blockSequenceStart none
    let gap ← skipLineGap true t.rest.tail
    if gap.tabs && Source.char gap.rest = '-' && isGap (Source.charAfter gap.rest) then
      Source.fail gap.rest .tabIndentation
    else
      let t := t.continueAt gap.rest
      let next := t.rest.char
      let t := if isBreak next || isFlowIndicator next then t.deepen else t
      let t ← t.dropKeyStart
      return (t.allowKey true).push .blockEntry

def readKey (t : Tokenizer) : Except SyntaxError Tokenizer := do
  let start := t.rest
  if !t.inFlow && !t.keyAllowed then start.fail .keyNotAllowed
  else
    let t := if t.inFlow then { t with keyAnnounced := true }
      else t.beginBlock start.column .blockMappingStart none
    let t ← t.dropKeyStart
    let (blank, rest) := skipKeyGap false false start.tail
    if !blank then Source.fail rest .keyWithoutBlank
    else if Source.char rest = '\t' then Source.fail rest .tabIndentation
    else return ((t.allowKey (!t.inFlow)).push .key).continueAt rest

/-- Skips the colon; behind it a tab alone does not separate a value. -/
def skipColon (s : Source) : Except SyntaxError Source := do
  if s.charAfter = '\t' then
    let gap ← skipLineGap true s.tail
    let next := Source.char gap.rest
    if !gap.spaces && (next = '-' || isNameChar next) then Source.fail gap.rest .valueWithoutBlank
    else return gap.rest
  else return s.tail

/-- Reads a value indicator; the tokens for its key are inserted where the key began. -/
def readValue (t : Tokenizer) : Except SyntaxError Tokenizer := do
  let start := t.rest
  let opensPair := !t.openPairs.isEmpty && !t.keyAnnounced
  let rest ← skipColon start
  let t := if opensPair then { t with openPairs := true :: t.openPairs.tail } else t
  match t.keyStart with
  | some k =>
    if opensPair && decide (k.position.line < start.position.line) then start.fail .keyOnEarlierLine
    else
      let t := t.insert k.index .key
      let t := if opensPair then t.insert k.index .flowMappingStart else t
      let t := (t.beginBlock k.position.column .blockMappingStart (some k.index)).deepen
      return ({ t with keyStart := none, rest := rest }.allowKey false).push .value
  | none =>
    let t := if opensPair then t.push .flowMappingStart else t
    if !t.inFlow && !t.keyAllowed then start.fail .valueNotAllowed
    else
      let t := (t.beginBlock start.column .blockMappingStart none).deepen
      return ((t.allowKey (!t.inFlow)).push .value).continueAt rest

/-- Reads a value indicator in a flow collection that no blank follows. -/
def readAdjacentValue (t : Tokenizer) : Except SyntaxError Tokenizer :=
  let next := t.rest.charAfter
  if t.adjacent ≠ some t.rest.position && (next = '[' || next = '{') then
    t.rest.fail .valueWithoutBlank
  else t.readValue

/-! ### Properties and scalars -/

/-- Adds a node property, which a key may begin with. -/
def pushProperty (t : Tokenizer) (read : Source → Except SyntaxError (Token × Source)) :
    Except SyntaxError Tokenizer := do
  let column := t.rest.column
  let t := t.noteKeyStart.allowKey false
  let (token, rest) ← read t.rest
  let t := (t.push token).continueAt rest
  return if column = 0 then { t with marginProperty := some t.tokens.size } else t

def readAnchorToken (s : Source) : Except SyntaxError (Token × Source) := do
  let (name, rest) ← readName s.tail
  return (.anchor name, rest)

/-- An alias is a node and not a property, but a key may begin with it, too. -/
def readAlias (t : Tokenizer) : Except SyntaxError Tokenizer := do
  let t := t.noteKeyStart.allowKey false
  let (name, rest) ← readName t.rest.tail
  return (t.push (.alias name)).continueAt rest

/-- A quoted scalar can only be followed by what ends it or makes it a key. -/
def mayFollowQuoted (t : Tokenizer) (line : Nat) (s : Source) : Bool :=
  isBreakOrEnd s.char ||
    s.char = ':' && (t.inFlow || s.position.line = line) ||
    t.inFlow && [',', '}', ']'].contains s.char

def readQuotedToken (t : Tokenizer) (quote : Quote) : Except SyntaxError Tokenizer := do
  let t := t.noteKeyStart.allowKey false
  let line := t.rest.position.line
  let (text, rest) ← readQuoted quote t.indent t.rest.tail
  let gap ← skipLineGap true rest
  if !t.mayFollowQuoted line gap.rest then Source.fail gap.rest .contentAfterQuote
  else
    let t ← (t.continueAt gap.rest).skipGap
    return { t with adjacent := some t.rest.position }.push (.scalar .quoted text)

def readPlainToken (t : Tokenizer) : Except SyntaxError Tokenizer := do
  let t := (t.noteKeyStart.allowKey false).undeepen
  let indent := t.indent + 1
  if t.inFlow && decide ((t.rest.column : Int) < indent) then t.rest.fail .invalidIndentation
  else
    let (text, rest) ← readPlain t.inFlow indent t.rest
    let onNewLine := rest.head?.any (·.indenting)
    return ((t.push (.scalar .plain text)).continueAt rest).allowKey onNewLine

def readBlockToken (t : Tokenizer) (style : BlockStyle) : Except SyntaxError Tokenizer := do
  let t := (t.noteKeyStart.allowKey true).undeepen
  let (header, rest) ← Block.readHeader t.rest.tail
  let gap ← skipLineGap true rest
  if !isBreakOrEnd (Source.char gap.rest) then Source.fail gap.rest .malformedBlockHeader
  else
    let (text, rest) ← readBlock style header t.indent gap.rest
    return (t.push (.scalar .quoted text)).continueAt rest

/-! ### The whole stream -/

/-- Reads the token that begins with the next character. -/
def readContent (t : Tokenizer) : Except SyntaxError Tokenizer :=
  let next := t.rest.charAfter
  match t.rest.char with
  | '[' => t.openFlow .flowSequenceStart
  | '{' => t.openFlow .flowMappingStart
  | ']' => t.closeFlow .flowSequenceEnd
  | '}' => t.closeFlow .flowMappingEnd
  | ',' => t.readFlowEntry
  | '-' => if isGap next then t.readBlockEntry else t.readPlainToken
  | '?' => if isGap next then t.readKey else t.readPlainToken
  | ':' =>
    if isGap next then t.readValue
    else if t.inFlow && (isFlowIndicator next || t.adjacent = some t.rest.position) then
      t.readAdjacentValue
    else t.readPlainToken
  | '*' => t.readAlias
  | '&' => t.pushProperty readAnchorToken
  | '!' => t.pushProperty (readTag t.inFlow)
  | '|' => if t.inFlow then t.readPlainToken else t.readBlockToken .literal
  | '>' => if t.inFlow then t.readPlainToken else t.readBlockToken .folded
  | '\'' => t.readQuotedToken .single
  | '"' => t.readQuotedToken .double
  | '%' | '@' | '\x60' => t.rest.fail .unexpectedCharacter
  | _ => t.readPlainToken

/-- Reads the next token, and the ends of the block collections before it. -/
def readToken (t : Tokenizer) : Except SyntaxError Tokenizer :=
  let t := t.endBlocks t.rest.column
  if t.rest.column = 0 && t.rest.char = '%' then t.readDirectiveToken
  else if t.rest.isDocumentStart then t.readDocumentStart
  else if t.rest.isDocumentEnd then t.readDocumentEnd
  else if (t.rest.column : Int) < t.indent then t.rest.fail .invalidIndentation
  else t.readContent

/-- Reads to the end of the stream; each token takes a character at least. -/
def readAll : Nat → Tokenizer → Except SyntaxError (Array Token)
  | 0, t => t.rest.fail .unexpectedCharacter
  | fuel + 1, t => do
    let t ← t.skipGap
    let t ← t.expireKeyStart
    if isEnd t.rest.char then
      return (← (t.endBlocks (-1)).dropKeyStart).tokens
    else
      readAll fuel (← t.readToken)

end Tokenizer

/-- The tokens of a stream. -/
def readTokens (text : String) : Except SyntaxError (List Token) := do
  let s := Source.ofString text
  let tokens ← (Tokenizer.start s).readAll s.length
  return tokens.toList

end LayoutCheck.Yaml
