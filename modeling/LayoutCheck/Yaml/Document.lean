import LayoutCheck.Yaml.Scalar
import LayoutCheck.Yaml.Tokenizer

/-!
The documents of a stream.

A document is one value. An alias stands for the value of the node that last got its name as an
anchor, or for no value while that node is not complete.
-/

namespace LayoutCheck.Yaml

/-- A tag whose handle has been replaced by what it stands for. -/
structure Tag where
  handle : String
  suffix : String
  deriving DecidableEq, Repr

def coreSchema : String := "tag:yaml.org,2002:"

/-- A mapping of which a key may be waiting for its value. -/
structure PartialMapping where
  entries : Entries
  key : Option Value

namespace PartialMapping

def empty : PartialMapping := ⟨[], none⟩

/-- Adds a node, as a key or as the value of the key that waits; what is not valid is no key. -/
def add (m : PartialMapping) (node : Value) : PartialMapping :=
  match m.key with
  | some key => ⟨m.entries.enter key node, none⟩
  | none => if node = .scalar .invalid then m else ⟨m.entries, some node⟩

def toValue (m : PartialMapping) : Value := .mapping m.entries

end PartialMapping

/-- The tokens that are left, and what has been declared so far. -/
structure Composer where
  tokens : List Token
  handles : List (String × String)
  /-- the anchors of the document by number, the latest first -/
  names : List (String × Nat)
  /-- the values of the anchors whose nodes are complete -/
  values : List (Nat × Value)
  /-- how many anchors there have been -/
  anchors : Nat

abbrev Compose := StateT Composer (Except SyntaxError)

namespace Compose

def fail {α : Type} (problem : Problem) : Compose α := throw ⟨problem, none⟩

/-- The next token. -/
def peek : Compose (Option Token) := do return (← get).tokens.head?

def skip : Compose Unit := modify (fun c => { c with tokens := c.tokens.tail })

/-- There is a next token and it is one of these. -/
def nextIs (tokens : List Token) : Compose Bool := do
  return (← peek).any tokens.contains

/-- Replaces the handle of a tag; one with a name must be declared. -/
def resolveTag (handle suffix : String) : Compose Tag := do
  match (← get).handles.lookup handle with
  | some expansion => return ⟨expansion, suffix⟩
  | none =>
    if handle = "!!" then return ⟨coreSchema, suffix⟩
    else if isNamedHandle handle.toList then fail .undeclaredTagHandle
    else return ⟨handle, suffix⟩

/-- Gives a new number to the name of an anchor. -/
def declareAnchor (name : String) : Compose Nat := do
  let c ← get
  set { c with names := (name, c.anchors) :: c.names, anchors := c.anchors + 1 }
  return c.anchors

/-- The value that an alias stands for. -/
def aliasValue (name : String) : Compose Value := do
  let c ← get
  match c.names.lookup name with
  | some number => return (c.values.lookup number).getD (.scalar .invalid)
  | none => fail .unknownAnchor

/-- What stands before a node. -/
structure Properties where
  anchor : Option Nat
  tag : Option Tag

/-- Reads an anchor and a tag, in either order. -/
def properties : Compose Properties := do
  match ← peek with
  | some (.anchor name) => do
    skip
    let anchor ← declareAnchor name
    match ← peek with
    | some (.tag handle suffix) => do
      skip
      return ⟨some anchor, some (← resolveTag handle suffix)⟩
    | _ => return ⟨some anchor, none⟩
  | some (.tag handle suffix) => do
    skip
    let tag ← resolveTag handle suffix
    match ← peek with
    | some (.anchor name) => do
      skip
      return ⟨some (← declareAnchor name), some tag⟩
    | _ => return ⟨none, some tag⟩
  | _ => return ⟨none, none⟩

namespace Properties

/-- Marks the value of a node that has a tag from outside the core schema. -/
def mark (p : Properties) (v : Value) : Value :=
  match p.tag with
  | some tag => if tag.handle = coreSchema then v else .tagged tag.handle tag.suffix v
  | none => v

/-- What a plain scalar means; a tag of the core schema decides. -/
def plain (p : Properties) (text : String) : Scalar :=
  match p.tag with
  | some tag => if tag.handle = coreSchema then .ofTagged tag.suffix text else .ofPlain text
  | none => .ofPlain text

/-- The value of a scalar; only plain ones are more than text. -/
def scalar (p : Properties) (presentation : Presentation) (text : String) : Value :=
  match presentation with
  | .quoted => .string text
  | .plain => .scalar (p.plain text)

/-- The node is complete: its anchor stands for its value from now on. -/
def complete (p : Properties) (value : Value) : Compose Value := do
  let v := p.mark value
  if let some number := p.anchor then
    modify (fun c => { c with values := (number, v) :: c.values })
  return v

end Properties

/-- The value of a node that is left out. -/
def absent : Value := .scalar .null

/-- A node of properties alone is empty text. -/
def emptyNode (p : Properties) : Compose Value :=
  if p.anchor.isSome || p.tag.isSome then p.complete (p.scalar .plain "")
  else fail .contentExpected

mutual

/--
Reads a node. `inBlock` admits block collections, `unindented` entries of a sequence that are not
indented further than the mapping around them.
-/
def node : Nat → (inBlock unindented : Bool) → Compose Value
  | 0, _, _ => fail .contentExpected
  | fuel + 1, inBlock, unindented => do
    if let some (.alias name) ← peek then
      skip
      aliasValue name
    else
      let p ← properties
      match ← peek with
      | some (.scalar presentation text) => do
        skip
        p.complete (p.scalar presentation text)
      | some .flowSequenceStart => do
        skip
        p.complete (.sequence (← flowItems fuel true []))
      | some .flowMappingStart => do
        skip
        p.complete (← flowPairs fuel true .empty)
      | some .blockEntry =>
        if unindented then do
          p.complete (.sequence (← unindentedItems fuel []))
        else emptyNode p
      | some .blockSequenceStart =>
        if inBlock then do
          skip
          p.complete (.sequence (← blockItems fuel []))
        else emptyNode p
      | some .blockMappingStart =>
        if inBlock then do
          skip
          p.complete (← blockPairs fuel .empty)
        else emptyNode p
      | _ => emptyNode p

/-- Reads a node unless one of the tokens follows. -/
def nodeUnless : Nat → (ends : List Token) → (inBlock unindented : Bool) → Compose Value
  | 0, _, _, _ => fail .contentExpected
  | fuel + 1, ends, inBlock, unindented => do
    if ← nextIs ends then return absent
    else node fuel inBlock unindented

/-- Reads the value of a pair, if it has one. -/
def pairValue : Nat → (ends : List Token) → (inBlock : Bool) → Compose Value
  | 0, _, _ => fail .contentExpected
  | fuel + 1, ends, inBlock => do
    if ← nextIs [.value] then
      skip
      nodeUnless fuel ends inBlock inBlock
    else return absent

def blockItems : Nat → (items : List Value) → Compose (List Value)
  | 0, _ => fail .entryExpected
  | fuel + 1, items => do
    match ← peek with
    | some .blockEnd => do
      skip
      return items.reverse
    | some .blockEntry => do
      skip
      let item ← nodeUnless fuel [.blockEntry, .blockEnd] true false
      blockItems fuel (item :: items)
    | _ => fail .entryExpected

def unindentedItems : Nat → (items : List Value) → Compose (List Value)
  | 0, _ => fail .entryExpected
  | fuel + 1, items => do
    if ← nextIs [.blockEntry] then
      skip
      let item ← nodeUnless fuel [.blockEntry, .key, .value, .blockEnd] true false
      unindentedItems fuel (item :: items)
    else return items.reverse

def blockPairs : Nat → (m : PartialMapping) → Compose Value
  | 0, _ => fail .keyExpected
  | fuel + 1, m => do
    match ← peek with
    | some .blockEnd => do
      skip
      return m.toValue
    | some .key => do
      skip
      let key ← nodeUnless fuel [.key, .value, .blockEnd] true true
      let value ← pairValue fuel [.key, .value, .blockEnd] true
      blockPairs fuel ((m.add key).add value)
    | some .value => do
      let value ← pairValue fuel [.key, .value, .blockEnd] true
      blockPairs fuel ((m.add absent).add value)
    | _ => fail .keyExpected

def flowPairs : Nat → (first : Bool) → (m : PartialMapping) → Compose Value
  | 0, _, _ => fail .entryExpected
  | fuel + 1, first, m => do
    if ← nextIs [.flowMappingEnd] then
      skip
      return m.toValue
    else
      if !first then
        if ← nextIs [.flowEntry] then skip
        else fail .entryExpected
      match ← peek with
      | some .flowMappingEnd => do
        skip
        return m.toValue
      | some .key => do
        skip
        let key ← nodeUnless fuel [.value, .flowEntry, .flowMappingEnd] false false
        let value ← pairValue fuel [.flowEntry, .flowMappingEnd] false
        flowPairs fuel false ((m.add key).add value)
      | some .value => do
        let value ← pairValue fuel [.flowEntry, .flowMappingEnd] false
        flowPairs fuel false ((m.add absent).add value)
      | _ => do
        let key ← node fuel false false
        flowPairs fuel false ((m.add key).add absent)

def flowItems : Nat → (first : Bool) → (items : List Value) → Compose (List Value)
  | 0, _, _ => fail .entryExpected
  | fuel + 1, first, items => do
    if ← nextIs [.flowSequenceEnd] then
      skip
      return items.reverse
    else
      if !first then
        if ← nextIs [.flowEntry] then skip
        else fail .entryExpected
      match ← peek with
      | some .flowSequenceEnd => do
        skip
        return items.reverse
      | some .key => do
        skip
        let pair ← singlePair fuel
        flowItems fuel false (pair :: items)
      | _ => do
        let item ← node fuel false false
        flowItems fuel false (item :: items)

/-- Reads a pair that is an item of a flow sequence. -/
def singlePair : Nat → Compose Value
  | 0 => fail .entryExpected
  | fuel + 1 => do
    let key ←
      if ← nextIs [.value, .flowEntry, .flowSequenceEnd] then do
        skip
        pure absent
      else node fuel false false
    let value ← pairValue fuel [.flowEntry, .flowSequenceEnd] false
    return ((PartialMapping.empty.add key).add value).toValue

end

def isDirective : Token → Bool
  | .versionDirective => true
  | .tagDirective .. => true
  | _ => false

/-- Reads directives. Each replaces the tag handles; a version can be given once. -/
def directives (versioned : Bool) : List Token → Compose Unit
  | .versionDirective :: rest => do
    if versioned then fail .repeatedVersion
    modify (fun c => { c with tokens := rest, handles := [] })
    directives true rest
  | .tagDirective handle expansion :: rest => do
    modify (fun c => { c with tokens := rest, handles := [(handle, expansion)] })
    directives versioned rest
  | _ => return ()

/-- Reads the value of a document that begins with a marker; it may be left out. -/
def markedDocument (fuel : Nat) : Compose Value := do
  directives false (← get).tokens
  if ← nextIs [.documentStart] then
    skip
    match ← peek with
    | none | some .documentStart | some .documentEnd => return absent
    | some token => if isDirective token then return absent else node fuel true false
  else fail .documentStartExpected

/-- Reads the documents; only after a document end may one begin without a marker. -/
def documents : Nat → (unmarked : Bool) → (values : List Value) → Compose (List Value)
  | 0, _, _ => fail .documentStartExpected
  | fuel + 1, unmarked, values => do
    modify (fun c => { c with tokens := c.tokens.dropWhile (· = .documentEnd) })
    match ← peek with
    | none => return values.reverse
    | some token => do
      let marked := token = .documentStart || isDirective token
      let value ← if unmarked && !marked then node fuel true false else markedDocument fuel
      modify (fun c => { c with handles := [], names := [] })
      if ← nextIs [.documentEnd] then documents fuel true (value :: values)
      else
        if (← peek).any isDirective then fail .directiveInDocument
        documents fuel false (value :: values)

end Compose

/-- The values of the documents of a stream. -/
def readDocuments (text : String) : Except SyntaxError (List Value) := do
  let tokens ← readTokens text
  let (values, _) ←
    (Compose.documents (4 * tokens.length + 4) true []).run ⟨tokens, [], [], [], 0⟩
  return values

end LayoutCheck.Yaml
