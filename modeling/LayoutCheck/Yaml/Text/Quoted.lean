import LayoutCheck.Yaml.Digits
import LayoutCheck.Yaml.Text.Folding
import LayoutCheck.Yaml.Token

/-!
The text of a quoted scalar, from behind its first quote.

In single quotes a quote is written twice; in double quotes a backslash begins an escape, or joins
a line to the next one.
-/

namespace LayoutCheck.Yaml

inductive Quote where
  | single
  | double
  deriving DecidableEq, Repr

namespace Quote

def char : Quote → Char
  | single => '\''
  | double => '"'

end Quote

/-- What an escape stands for: a character, or the one with a code of so many hexadecimal digits. -/
inductive Escape where
  | char (c : Char)
  | code (digits : Nat)

namespace Escape

/-- The escape that the character after a backslash names. -/
def ofChar? : Char → Option Escape
  | '0' => some (char '\x00')
  | 'a' => some (char '\x07')
  | 'b' => some (char '\x08')
  | 't' => some (char '\t')
  | '\t' => some (char '\t')
  | 'n' => some (char '\n')
  | 'v' => some (char '\x0b')
  | 'f' => some (char '\x0c')
  | 'r' => some (char '\x0d')
  | 'e' => some (char '\x1b')
  | ' ' => some (char ' ')
  | '"' => some (char '"')
  | '/' => some (char '/')
  | '\\' => some (char '\\')
  | 'N' => some (char '\u0085')
  | '_' => some (char '\u00a0')
  | 'L' => some (char '\u2028')
  | 'P' => some (char '\u2029')
  | 'x' => some (code 2)
  | 'u' => some (code 4)
  | 'U' => some (code 8)
  | _ => none

end Escape

namespace Quoted

/-- What the next character is read as. -/
inductive Mode where
  /-- text, after blanks and line breaks -/
  | text (gap : Folding)
  /-- the second of two quotes -/
  | quote
  /-- the character that a backslash precedes -/
  | escape
  /-- a line break that a backslash precedes -/
  | lineEscape
  /-- one of so many more digits of a character code -/
  | code (digits value : Nat)

/-- Reads to the closing quote, with the text so far backwards, and gives the text and the rest. -/
def read (quote : Quote) (indent : Int) (text : List Char) (mode : Mode) :
    Source → Except SyntaxError (String × Source)
  | [] => Source.fail [] .unclosedQuote
  | c :: rest =>
    match mode with
    | .quote => read quote indent (c.char :: text) (.text .nothing) rest
    | .escape =>
      match Escape.ofChar? c.char with
      | some (.char e) => read quote indent (e :: text) (.text .nothing) rest
      | some (.code digits) => read quote indent text (.code digits 0) rest
      | none => Source.fail (c :: rest) .unknownEscape
    | .lineEscape =>
      if Source.char rest = quote.char then .ok (String.ofList text.reverse, rest.tail)
      else read quote indent text (.text (.joined 0)) rest
    | .code digits value =>
      match digit? 16 c.char with
      | none => Source.fail (c :: rest) .unknownEscape
      | some d =>
        if 1 < digits then read quote indent text (.code (digits - 1) (value * 16 + d)) rest
        else
          match charOfCode? (value * 16 + d) with
          | some e => read quote indent (e :: text) (.text .nothing) rest
          | none => Source.fail (c :: rest) .unknownEscape
    | .text gap =>
      if isBlank c.char then
        if gap.onNewLine && c.char = '\t' && decide ((c.column : Int) < indent) then
          Source.fail (c :: rest) .tabIndentation
        else read quote indent text (.text (gap.addBlank c.char)) rest
      else if isBreak c.char then read quote indent text (.text gap.addBreak) rest
      else if isEnd c.char then Source.fail (c :: rest) .unclosedQuote
      else if Source.isDocumentMarker (c :: rest) then Source.fail (c :: rest) .markerInQuote
      else if (c.column : Int) < indent then Source.fail (c :: rest) .invalidIndentation
      else
        let text := gap.close text
        if c.char = quote.char then
          if quote = .single && Source.char rest = quote.char then
            read quote indent text .quote rest
          else .ok (String.ofList text.reverse, rest)
        else if quote = .double && c.char = '\\' then
          if isBreak (Source.char rest) then read quote indent text .lineEscape rest
          else read quote indent text .escape rest
        else read quote indent (c.char :: text) (.text .nothing) rest

end Quoted

/-- The text up to the closing quote, and the rest. -/
def readQuoted (quote : Quote) (indent : Int) (s : Source) : Except SyntaxError (String × Source) :=
  Quoted.read quote indent [] (.text .nothing) s

end LayoutCheck.Yaml
