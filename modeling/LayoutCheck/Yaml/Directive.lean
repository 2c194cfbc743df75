import LayoutCheck.Yaml.Gap
import LayoutCheck.Yaml.Property

/-!
Directives: lines before a document that say how to read it.
-/

namespace LayoutCheck.Yaml

/-- Reads the digits of a version; there are nine at most. -/
def readVersionNumber (s : Source) : Except SyntaxError Source :=
  let digits := s.textOf Char.isDigit
  if digits = [] || decide (9 < digits.length) then s.fail .malformedDirective
  else .ok (s.skip Char.isDigit)

/-- Reads a version, two numbers with a point between. -/
def readVersion (s : Source) : Except SyntaxError (Token × Source) := do
  let rest ← readVersionNumber (s.skip isBlank)
  if Source.char rest ≠ '.' then Source.fail rest .malformedDirective
  else
    let rest ← readVersionNumber rest.tail
    return (.versionDirective, rest)

/-- Reads a tag handle and what it stands for. -/
def readTagDeclaration (s : Source) : Except SyntaxError (Token × Source) := do
  let (handle, rest) ← readHandle (s.skip isBlank)
  if handle.length ≠ 1 && !isNamedHandle handle then Source.fail rest .malformedDirective
  else
    let start := Source.skip isBlank rest
    let first := Source.char start
    if first ≠ '!' && !isTagChar first then Source.fail start .malformedDirective
    else
      let (expansion, rest) ← readUri isUriChar start
      if isGap (Source.char rest) then
        return (.tagDirective (String.ofList handle) expansion, rest)
      else Source.fail rest .malformedDirective

/--
Reads a directive from behind its percent sign to the end of its line. One with an unknown name
declares the empty tag handle.
-/
def readDirective (s : Source) : Except SyntaxError (Token × Source) := do
  let name := s.textOf isNameChar
  let rest := s.skip isNameChar
  if name = [] || !isGap (Source.char rest) then Source.fail rest .malformedDirective
  else
    let (token, rest) ←
      match String.ofList name with
      | "YAML" => readVersion rest
      | "TAG" => readTagDeclaration rest
      | _ => .ok (.tagDirective "" "", Source.skip (fun c => !isBreakOrEnd c) rest)
    let gap ← skipLineGap true rest
    if isBreak (Source.char gap.rest) then return (token, gap.rest.tail)
    else if isEnd (Source.char gap.rest) then return (token, gap.rest)
    else Source.fail gap.rest .malformedDirective

end LayoutCheck.Yaml
