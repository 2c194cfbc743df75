import LayoutCheck.Yaml.Digits
import LayoutCheck.Yaml.Token

/-!
Node properties: anchors and tags.

A tag is a handle and a suffix. Between angle brackets the suffix is all of the tag; the tag that is
only an exclamation mark is all suffix, too.
-/

namespace LayoutCheck.Yaml

/-- Reads the name of an anchor or an alias. -/
def readName (s : Source) : Except SyntaxError (String × Source) :=
  match s.textOf isAnchorChar with
  | [] => s.fail .namelessAnchor
  | name => .ok (String.ofList name, s.skip isAnchorChar)

namespace Uri

/-- How many bytes the character has whose first byte this is. -/
def width? (byte : Nat) : Option Nat :=
  if byte < 0x80 then some 1
  else if byte / 0x20 = 6 then some 2
  else if byte / 0x10 = 14 then some 3
  else if byte / 0x08 = 30 then some 4
  else none

/-- What the next character is read as. -/
inductive Mode where
  /-- a character or the sign of an escaped byte -/
  | text
  /-- the sign of one of so many more bytes of a character -/
  | sign (left code : Nat)
  /-- the first digit of a byte -/
  | high (left : Option Nat) (code : Nat)
  /-- the second digit of a byte -/
  | low (left : Option Nat) (code high : Nat)

/--
Takes another byte of a character: how many bytes are left, and the code so far. The bytes are put
side by side, so a character of more than two bytes has no valid code.
-/
def addByte (left : Option Nat) (code byte : Nat) : Option (Nat × Nat) :=
  match left with
  | none => (width? byte).map (fun width => (width - 1, byte))
  | some n => if byte / 0x40 = 2 then some (n - 1, code * 256 + byte) else none

/-- Reads characters of a class, some of them escaped, with the text so far backwards. -/
def read (allowed : Char → Bool) (text : List Char) (mode : Mode) :
    Source → Except SyntaxError (String × Source)
  | [] => .ok (String.ofList text.reverse, [])
  | c :: rest =>
    match mode with
    | .text =>
      if !allowed c.char then .ok (String.ofList text.reverse, c :: rest)
      else if c.char = '%' then read allowed text (.high none 0) rest
      else read allowed (c.char :: text) .text rest
    | .sign left code =>
      if c.char = '%' then read allowed text (.high (some left) code) rest
      else Source.fail (c :: rest) .malformedUriEscape
    | .high left code =>
      match digit? 16 c.char with
      | some high => read allowed text (.low left code high) rest
      | none => Source.fail (c :: rest) .malformedUriEscape
    | .low left code high =>
      match (digit? 16 c.char).bind (fun low => addByte left code (high * 16 + low)) with
      | none => Source.fail (c :: rest) .malformedUriEscape
      | some (0, code) =>
        match charOfCode? code with
        | some e => read allowed (e :: text) .text rest
        | none => Source.fail (c :: rest) .malformedUriEscape
      | some (left, code) => read allowed text (.sign left code) rest

end Uri

/-- Reads characters of a class, some of them escaped. -/
def readUri (allowed : Char → Bool) (s : Source) : Except SyntaxError (String × Source) :=
  Uri.read allowed [] .text s

/-- Reads an exclamation mark, a name and the exclamation mark after it, if there is one. -/
def readHandle (s : Source) : Except SyntaxError (List Char × Source) :=
  if s.char ≠ '!' then s.fail .malformedTag
  else
    let name := Source.textOf isNameChar s.tail
    let rest := Source.skip isNameChar s.tail
    if Source.char rest = '!' then .ok ('!' :: name ++ ['!'], rest.tail)
    else .ok ('!' :: name, rest)

/-- The handle is named, or it is the secondary one. -/
def isNamedHandle (handle : List Char) : Bool :=
  decide (2 ≤ handle.length) && handle.getLast? = some '!'

/-- Reads a tag between angle brackets. -/
def readVerbatimTag (s : Source) : Except SyntaxError (Token × Source) := do
  let (suffix, rest) ← readUri isUriChar s
  if Source.char rest ≠ '>' then Source.fail rest .malformedTag
  else return (.tag "" suffix, rest.tail)

/-- Reads a tag that begins with a handle. -/
def readShorthandTag (s : Source) : Except SyntaxError (Token × Source) := do
  let (handle, rest) ← readHandle s
  let (suffix, after) ← readUri isTagChar rest
  if isNamedHandle handle then
    if suffix = "" then Source.fail after .malformedTag
    else return (.tag (String.ofList handle) suffix, after)
  else
    let suffix := String.ofList handle.tail ++ suffix
    return (if suffix = "" then .tag "" "!" else .tag "!" suffix, after)

/-- Reads a tag, which no content may follow directly. -/
def readTag (inFlow : Bool) (s : Source) : Except SyntaxError (Token × Source) := do
  let (token, rest) ←
    if s.charAfter = '<' then readVerbatimTag (s.drop 2) else readShorthandTag s
  let next := Source.char rest
  if isGap next || inFlow && isFlowIndicator next then return (token, rest)
  else Source.fail rest .malformedTag

end LayoutCheck.Yaml
