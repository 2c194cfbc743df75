/-!
The characters of a YAML stream with the places where they stand.

Line ends of all kinds are line feeds here, and the end of the text is a character of its own, so a
`Source` is a list that can be read by recursion.
-/

namespace LayoutCheck.Yaml

/-- A line and a column, both counted from zero. -/
structure Position where
  line : Nat
  column : Nat
  deriving DecidableEq, Repr, Inhabited

/-- A character in its place; `indenting` says that only blanks stand before it on its line. -/
structure Cell where
  char : Char
  position : Position
  indenting : Bool
  deriving DecidableEq, Repr

namespace Cell

def column (c : Cell) : Nat := c.position.column

def line (c : Cell) : Nat := c.position.line

end Cell

/-! ## Classes of characters -/

/-- Stands for the end of the text, which it ends wherever it occurs. -/
def endMark : Char := '\x00'

def isEnd (c : Char) : Bool := c = endMark

def isBreak (c : Char) : Bool := c = '\n'

def isBreakOrEnd (c : Char) : Bool := isBreak c || isEnd c

def isBlank (c : Char) : Bool := c = ' ' || c = '\t'

/-- No content: a blank, a line break or the end. -/
def isGap (c : Char) : Bool := isBlank c || isBreakOrEnd c

/-- The indicators of flow collections. -/
def isFlowIndicator (c : Char) : Bool := [',', '[', ']', '{', '}'].contains c

def isWordChar (c : Char) : Bool := c.isAlphanum || c = '-'

/-- A character of the name of a directive or a tag handle. -/
def isNameChar (c : Char) : Bool := isWordChar c || c = '_'

def isUriChar (c : Char) : Bool := isWordChar c || "#;/?:@&=+$,_.!~*'()[]%".toList.contains c

/-- A character of a tag that is written without angle brackets. -/
def isTagChar (c : Char) : Bool := isUriChar c && !isFlowIndicator c && c ≠ '!'

def isAnchorChar (c : Char) : Bool := !isGap c && !isFlowIndicator c && c ≠ '\ufeff'

/-- The character of that code, if it is the code of one. -/
def charOfCode? (code : Nat) : Option Char :=
  if code.isValidChar then some (Char.ofNat code) else none

/-! ## Sources -/

abbrev Source := List Cell

namespace Source

def unifyBreaks : List Char → List Char
  | [] => []
  | '\x0d' :: '\n' :: cs => '\n' :: unifyBreaks cs
  | c :: cs => (if c = '\x0d' then '\n' else c) :: unifyBreaks cs

/-- Puts the characters and the end of the text in their places, from a place on. -/
def place (position : Position) (indenting : Bool) : List Char → Source
  | [] => [⟨endMark, position, indenting⟩]
  | c :: cs =>
    ⟨c, position, indenting⟩ ::
      if isBreak c then place ⟨position.line + 1, 0⟩ true cs
      else place ⟨position.line, position.column + 1⟩ (indenting && isBlank c) cs

def ofString (text : String) : Source :=
  place ⟨0, 0⟩ true (unifyBreaks (text.toList.takeWhile (fun c => !isEnd c)))

/-- The next character. -/
def char (s : Source) : Char := (s.head?.map (·.char)).getD endMark

/-- The character after the next one. -/
def charAfter (s : Source) : Char := char s.tail

def position (s : Source) : Position := (s.head?.map (·.position)).getD default

def column (s : Source) : Nat := s.position.column

/-- The characters for which the class holds, up to the first for which it does not. -/
def textOf (p : Char → Bool) (s : Source) : List Char :=
  (s.takeWhile (fun c => p c.char)).map (·.char)

/-- What follows those characters. -/
def skip (p : Char → Bool) (s : Source) : Source := s.dropWhile (fun c => p c.char)

/-- Three of the character, and then no content. -/
def isTriple (c : Char) (s : Source) : Bool :=
  (s.take 3).map (·.char) = [c, c, c] && isGap (char (s.drop 3))

/-- The text of a document marker, wherever it stands on its line. -/
def isMarkerText (s : Source) : Bool := isTriple '-' s || isTriple '.' s

def isDocumentStart (s : Source) : Bool := s.column = 0 && isTriple '-' s

def isDocumentEnd (s : Source) : Bool := s.column = 0 && isTriple '.' s

def isDocumentMarker (s : Source) : Bool := s.column = 0 && isMarkerText s

end Source

end LayoutCheck.Yaml
