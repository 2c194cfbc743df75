/-!
Line folding: what becomes of the blanks and line breaks between two words of a flow scalar.

Blanks within a line are kept. One line break becomes a blank, further ones stay, and the blanks
around line breaks are dropped.
-/

namespace LayoutCheck.Yaml

/--
What stands between two words: blanks only, the last one first; a line break and so many more; or
line breaks of which the first was escaped and does not count.
-/
inductive Folding where
  | blanks (last : List Char)
  | folded (more : Nat)
  | joined (breaks : Nat)
  deriving DecidableEq, Repr

namespace Folding

def nothing : Folding := blanks []

/-- The blanks that follow indent a line. -/
def onNewLine : Folding → Bool
  | blanks _ => false
  | _ => true

def addBlank (c : Char) : Folding → Folding
  | blanks last => blanks (c :: last)
  | f => f

def addBreak : Folding → Folding
  | blanks _ => folded 0
  | folded n => folded (n + 1)
  | joined n => joined (n + 1)

/-- Puts what the next word is led by on a text, the last character first. -/
def close (f : Folding) (text : List Char) : List Char :=
  match f with
  | blanks last => last ++ text
  | folded 0 => ' ' :: text
  | folded n => List.replicate n '\n' ++ text
  | joined n => List.replicate n '\n' ++ text

end Folding

end LayoutCheck.Yaml
