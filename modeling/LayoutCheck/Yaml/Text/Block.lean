import LayoutCheck.Yaml.Token

/-!
The text of a block scalar, from behind its indicator.

The header may say how far the content is indented and what becomes of the line breaks at its end.
Without an indentation in the header, the first line of content shows it.
-/

namespace LayoutCheck.Yaml

/-- What becomes of the line breaks at the end: none is kept, the first one, or all. -/
inductive Chomping where
  | strip
  | clip
  | keep
  deriving DecidableEq, Repr

/-- Whether lines are kept as they are or folded into paragraphs. -/
inductive BlockStyle where
  | literal
  | folded
  deriving DecidableEq, Repr

namespace Block

structure Header where
  chomping : Chomping
  /-- how much further than the collection around it the content is indented -/
  extra : Option Nat

def chomping? : Char → Option Chomping
  | '+' => some .keep
  | '-' => some .strip
  | _ => none

/-- Reads the digit of a header, if there is one; it cannot be zero. -/
def readExtra (s : Source) : Except SyntaxError (Option Nat × Source) :=
  if s.char.isDigit then
    if s.char = '0' then s.fail .malformedBlockHeader
    else .ok (some (s.char.toNat - '0'.toNat), s.tail)
  else .ok (none, s)

/-- Reads the two parts of a header in either order. -/
def readHeader (s : Source) : Except SyntaxError (Header × Source) := do
  match chomping? s.char with
  | some chomping => do
    let (extra, rest) ← readExtra s.tail
    return (⟨chomping, extra⟩, rest)
  | none => do
    let (extra, rest) ← readExtra s
    match extra, chomping? (Source.char rest) with
    | some n, some chomping => return (⟨chomping, some n⟩, rest.tail)
    | _, _ => return (⟨.clip, extra⟩, rest)

/-- The line breaks before the content, and the rightmost column that their blanks reach. -/
def skipToContent (breaks widest : Nat) : Source → Nat × Nat × Source
  | [] => (breaks, widest, [])
  | c :: rest =>
    if c.char = ' ' then skipToContent breaks widest rest
    else if isBreak c.char then skipToContent (breaks + 1) (max widest c.column) rest
    else (breaks, max widest c.column, c :: rest)

/-- The line breaks before the content when its indentation is known. -/
def skipIndent (indent breaks : Nat) : Source → Nat × Source
  | [] => (breaks, [])
  | c :: rest =>
    if c.char = ' ' && decide (c.column < indent) then skipIndent indent breaks rest
    else if isBreak c.char then skipIndent indent (breaks + 1) rest
    else (breaks, c :: rest)

/-- The lines of content so far. -/
structure Body where
  /-- the text, backwards, without the line breaks after it -/
  text : List Char
  /-- a line has been ended after the text -/
  ended : Bool
  /-- the empty lines after that -/
  empty : Nat
  /-- the last line of the text begins with a blank -/
  blankLed : Bool

namespace Body

/-- Begins a line of content: in folded style a line break between two words becomes a blank. -/
def beginLine (style : BlockStyle) (b : Body) (first : Char) : Body :=
  let folds := style = .folded && b.ended && !b.blankLed && !isBlank first
  let text := if b.ended && !folds then '\n' :: b.text else b.text
  let text := List.replicate b.empty '\n' ++ text
  let text := if folds && b.empty = 0 then ' ' :: text else text
  ⟨first :: text, false, 0, isBlank first⟩

def addChar (b : Body) (c : Char) : Body := { b with text := c :: b.text }

def endLine (b : Body) : Body := { b with ended := true }

def addEmpty (b : Body) : Body := { b with empty := b.empty + 1 }

/-- The whole text; at the end of the stream a last line may lack its line break. -/
def finish (b : Body) (chomping : Chomping) (lastEnds : Bool) : String :=
  let text := if chomping ≠ .strip && b.ended then '\n' :: b.text else b.text
  let text := if chomping ≠ .strip && lastEnds then '\n' :: text else text
  let text := if chomping = .keep then List.replicate b.empty '\n' ++ text else text
  String.ofList text.reverse

end Body

/-- Reads the lines of content; `inLine` says that one has begun. -/
def readLines (style : BlockStyle) (indent : Nat) (inLine : Bool) (b : Body) :
    Source → Body × Source
  | [] => (b, [])
  | c :: rest =>
    if isEnd c.char then (b, c :: rest)
    else if inLine then
      if isBreak c.char then readLines style indent false b.endLine rest
      else readLines style indent true (b.addChar c.char) rest
    else if c.char = ' ' && decide (c.column < indent) then readLines style indent false b rest
    else if isBreak c.char then readLines style indent false b.addEmpty rest
    else if c.column = indent && !(indent = 0 && Source.isDocumentEnd (c :: rest)) then
      readLines style indent true (b.beginLine style c.char) rest
    else (b, c :: rest)

/-- The text of a scalar of which only line breaks stand before the end of the stream. -/
def emptyText (chomping : Chomping) (sameLine : Bool) (breaks : Nat) : String :=
  if chomping = .strip || sameLine then ""
  else if chomping = .clip || breaks = 0 then "\n"
  else String.ofList (List.replicate breaks '\n')

/-- Where the content begins: how far it is indented, the empty lines before it, and the rest. -/
def findContent (parent : Int) (extra : Option Nat) (s : Source) : Nat × Nat × Source :=
  match extra with
  | some n =>
    let indent := (max parent 0).toNat + n
    let (breaks, rest) := skipIndent indent 0 s
    (indent, breaks, rest)
  | none =>
    let (breaks, widest, rest) := skipToContent 0 0 s
    let indent := max widest (parent + 1).toNat
    (if 0 < parent then max indent 1 else indent, breaks, rest)

end Block

/--
Reads what follows the header of a block scalar, from the end of its line on. `parent` is the
indentation around it.
-/
def readBlock (style : BlockStyle) (header : Block.Header) (parent : Int) (s : Source) :
    Except SyntaxError (String × Source) :=
  let ended := isBreak s.char
  let s := if ended then s.tail else s
  if Source.char s = '\t' then Source.fail s .tabIndentation
  else
    let (indent, breaks, rest) := Block.findContent parent header.extra s
    if isEnd (Source.char rest) then
      .ok (Block.emptyText header.chomping (!ended) breaks, rest)
    else if Source.column rest < indent && decide (parent < Source.column rest) then
      Source.fail rest .invalidIndentation
    else
      let (body, rest) := Block.readLines style indent false ⟨[], false, breaks, false⟩ rest
      let lastEnds := isEnd (Source.char rest) && decide (max indent 1 ≤ Source.column rest)
      .ok (body.finish header.chomping lastEnds, rest)

end LayoutCheck.Yaml
