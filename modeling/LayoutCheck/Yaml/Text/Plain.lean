import LayoutCheck.Yaml.Text.Folding
import LayoutCheck.Yaml.Token

/-!
The text of a plain scalar.

It ends before a colon that no content follows, before a comment, before a line that is not
indented further than the collection around it or that begins with the text of a document marker,
and in flow collections before their indicators.
-/

namespace LayoutCheck.Yaml

namespace Plain

/-- The next character can stand in a plain scalar. -/
def isContent (inFlow : Bool) (s : Source) : Bool :=
  let c := s.char
  let endsKey := c = ':' && (isGap s.charAfter || inFlow && isFlowIndicator s.charAfter)
  !isGap c && !endsKey && !(inFlow && isFlowIndicator c)

/-- What the next character is read as. -/
inductive Mode where
  /-- the first of the text -/
  | first
  /-- part of a word -/
  | word
  /-- a blank or line break, or the first of another word -/
  | gap (gap : Folding)
  /-- part of a line without content that a tab indents -/
  | remark (gap : Folding)

/-- Reads to the end of the scalar; the text so far and the text that results are backwards. -/
def read (inFlow : Bool) (indent : Int) (text : List Char) (mode : Mode) :
    Source → Except SyntaxError (List Char × Source)
  | [] => .ok (text, [])
  | c :: rest =>
    match mode with
    | .remark gap =>
      if isBreak c.char then read inFlow indent text (.gap gap.addBreak) rest
      else if isEnd c.char then .ok (text, c :: rest)
      else read inFlow indent text (.remark gap) rest
    | .word =>
      if isBlank c.char then read inFlow indent text (.gap (.blanks [c.char])) rest
      else if isBreak c.char then read inFlow indent text (.gap (.folded 0)) rest
      else if isContent inFlow (c :: rest) then read inFlow indent (c.char :: text) .word rest
      else .ok (text, c :: rest)
    | mode =>
      let gap := match mode with
        | .gap gap => gap
        | _ => .nothing
      let continues := match mode with
        | .gap _ => true
        | _ => false
      if isBreak c.char then read inFlow indent text (.gap gap.addBreak) rest
      else if isBlank c.char then
        if gap.onNewLine && c.char = '\t' && decide ((c.column : Int) < indent) then
          if isBreakOrEnd (Source.char (Source.skip isBlank rest)) ||
              Source.char (Source.skip isBlank rest) = '#' then
            read inFlow indent text (.remark gap) rest
          else Source.fail (c :: rest) .tabIndentation
        else read inFlow indent text (.gap (gap.addBlank c.char)) rest
      else if continues && !inFlow && decide ((c.column : Int) < indent) then .ok (text, c :: rest)
      else if c.indenting && Source.isMarkerText (c :: rest) || c.char = '#' then
        .ok (text, c :: rest)
      else if inFlow && c.char = '-' && isFlowIndicator (Source.char rest) then
        Source.fail (c :: rest) .unexpectedCharacter
      else if isContent inFlow (c :: rest) then
        read inFlow indent (c.char :: gap.close text) .word rest
      else .ok (text, c :: rest)

end Plain

/--
The text of the scalar and the rest. Its lines after the first are indented by `indent` at least; a
scalar must have text.
-/
def readPlain (inFlow : Bool) (indent : Int) (s : Source) :
    Except SyntaxError (String × Source) := do
  let (text, rest) ← Plain.read inFlow indent [] .first s
  if text = [] then s.fail .unexpectedCharacter
  else return (String.ofList text.reverse, rest)

end LayoutCheck.Yaml
