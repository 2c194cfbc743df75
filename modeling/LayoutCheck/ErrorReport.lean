/-!
The report of an error and of what caused it, one text a line.

A text that ends with the one of its cause is shown without it, and without the blanks and colons
that are then at its end; a note says so.
-/

namespace LayoutCheck.ErrorReport

/-- A character of the class White_Space. -/
def isWhiteSpace (c : Char) : Bool :=
  ('\t' ≤ c && c ≤ '\x0d') || c = ' ' || c = '\u0085' || c = '\u00a0' || c = '\u1680' ||
    ('\u2000' ≤ c && c ≤ '\u200a') || c = '\u2028' || c = '\u2029' || c = '\u202f' ||
    c = '\u205f' || c = '\u3000'

/-- Takes away the first list from the front of the second as often as it stands there. -/
def dropRepeated (front : List Char) : (fuel : Nat) → List Char → List Char
  | 0, cs => cs
  | fuel + 1, cs =>
    if front.isPrefixOf cs then dropRepeated front fuel (cs.drop front.length) else cs

/-- The text without the one of its cause at its end, and without blanks and colons there. -/
def trim (text cause : String) : String :=
  let cs := text.toList.reverse
  let rest := dropRepeated cause.toList.reverse cs.length cs
  String.ofList ((rest.dropWhile isWhiteSpace).dropWhile (· = ':')).reverse

/-- What becomes of a text before the text of its cause. -/
inductive Cleaned where
  | kept (text : String)
  | shortened (text : String)
  | removed

def clean (text cause : String) : Cleaned :=
  let short := trim text cause
  if short = "" then .removed
  else if short = text then .kept text
  else .shortened short

namespace Cleaned

/-- The text as it is shown; a star marks a shortened one. -/
def shown? : Cleaned → Option String
  | kept text => some text
  | shortened text => some (text ++ " *")
  | removed => none

def isShortened : Cleaned → Bool
  | shortened _ => true
  | _ => false

def isKept : Cleaned → Bool
  | kept _ => true
  | _ => false

end Cleaned

/-- Cleans each text before the next; the last one stays. -/
def cleanAll : List String → List Cleaned
  | [] => []
  | [text] => [.kept text]
  | text :: cause :: causes => clean text cause :: cleanAll (cause :: causes)

/-- A number with blanks before it, three characters wide. -/
def numberText (n : Nat) : String :=
  let digits := Nat.repr n
  String.ofList (List.replicate (3 - digits.length) ' ') ++ digits

/-- The causes, numbered from a number on. -/
def causeLines (n : Nat) : List String → List String
  | [] => []
  | text :: texts => (numberText n ++ ": " ++ text) :: causeLines (n + 1) texts

def causeHeading : List String → List String
  | [] => []
  | [_] => ["", "Caused by this error:"]
  | _ => ["", "Caused by these errors (recent errors listed first):"]

def noteLines (texts : List Cleaned) : List String :=
  if texts.all (·.isKept) then []
  else
    let marked := if texts.any (·.isShortened) then " from the lines marked with *" else ""
    ["", "NOTE: Some redundant information has been removed" ++ marked ++
      ". Set SNAFU_RAW_ERROR_MESSAGES=1 to disable this behavior."]

/-- The report of a chain of errors, each caused by the next one. -/
def render (chain : List String) : String :=
  let texts := cleanAll chain
  let shown := texts.filterMap (·.shown?)
  match shown with
  | [] => ""
  | head :: causes =>
    String.join ((head :: causeHeading causes ++ causeLines 1 causes ++ noteLines texts).map
      (· ++ "\n"))

end LayoutCheck.ErrorReport
