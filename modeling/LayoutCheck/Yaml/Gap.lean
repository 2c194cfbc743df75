import LayoutCheck.Yaml.Token

/-!
What stands between tokens: blanks, comments and line breaks.
-/

namespace LayoutCheck.Yaml

/-- The blanks of a line that stand before its end, a comment or the next token. -/
structure LineGap where
  spaces : Bool
  tabs : Bool
  rest : Source

/-- Skips blanks, among which tabs may not count, and a comment, which a blank must precede. -/
def skipLineGap (skipTabs : Bool) (s : Source) : Except SyntaxError LineGap :=
  let isSkipped (c : Char) : Bool := c = ' ' || skipTabs && c = '\t'
  let blanks := s.textOf isSkipped
  let rest := s.skip isSkipped
  let gap (rest : Source) : LineGap := ⟨blanks.contains ' ', blanks.contains '\t', rest⟩
  if Source.char rest = '#' then
    if blanks = [] then Source.fail rest .commentWithoutBlank
    else .ok (gap (Source.skip (fun c => !isBreakOrEnd c) rest))
  else .ok (gap rest)

/--
Skips to the next token, and says whether a line break was passed. On lines that tabs indent left of
the limit there must be no content.
-/
def skipGap (limit : Option Int) (inComment passed : Bool) :
    Source → Except SyntaxError (Bool × Source)
  | [] => .ok (passed, [])
  | c :: rest =>
    if isBreak c.char then skipGap limit false true rest
    else if isEnd c.char then .ok (passed, c :: rest)
    else if inComment || c.char = '#' then skipGap limit true passed rest
    else if c.char = ' ' then skipGap limit false passed rest
    else if c.char = '\t' then
      let next := Source.char (Source.skip isBlank rest)
      let indents := c.indenting && limit.any (fun n => (c.column : Int) < n)
      if indents && !isBreakOrEnd next && next ≠ '#' then Source.fail (c :: rest) .tabIndentation
      else skipGap limit false passed rest
    else .ok (passed, c :: rest)

/--
Skips to the content behind a key indicator, and says whether a blank or a line break stands before
it.
-/
def skipKeyGap (inComment apart : Bool) : Source → Bool × Source
  | [] => (apart, [])
  | c :: rest =>
    if isBreak c.char then skipKeyGap false true rest
    else if isEnd c.char then (apart, c :: rest)
    else if inComment || c.char = '#' then skipKeyGap true apart rest
    else if c.char = ' ' then skipKeyGap false true rest
    else (apart, c :: rest)

end LayoutCheck.Yaml
