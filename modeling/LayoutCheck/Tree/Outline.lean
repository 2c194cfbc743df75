import LayoutCheck.Tree

/-!
The outline of a tree: one line for each entry, indented two blanks for each level.

A line holds the name, a slash after the name of a directory, and the description after two blanks
and a number sign.
-/

namespace LayoutCheck.Tree

/-- The blanks before an entry at that depth. -/
def indentation (depth : Nat) : String := String.ofList (List.replicate (2 * depth) ' ')

def descriptionSuffix : Option String → String
  | none => ""
  | some d => "  # " ++ d

mutual

/-- The lines of a tree whose root stands at that depth. -/
def outlineLines (depth : Nat) : Tree → List String
  | file n d => [indentation depth ++ n ++ descriptionSuffix d]
  | directory n d cs =>
    (indentation depth ++ n ++ "/" ++ descriptionSuffix d) :: outlineAll (depth + 1) cs

def outlineAll (depth : Nat) : List Tree → List String
  | [] => []
  | c :: cs => c.outlineLines depth ++ outlineAll depth cs

end

/-- The whole outline, each line ended. -/
def outline (t : Tree) : String := String.join ((t.outlineLines 0).map (· ++ "\n"))

end LayoutCheck.Tree
