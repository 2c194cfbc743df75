/-!
Paths of tree entries: names joined by slashes.

`joinPath` makes them. `parentPath?` and `lastName` take them apart at the last slash, and
`isBelow` says that one path extends another by a slash and more.
-/

namespace LayoutCheck

/-- The path of an entry under a path; under the empty path it is the bare name. -/
def joinPath (above name : String) : String :=
  if above = "" then name else above ++ "/" ++ name

/-- The path of the entry that a list of names leads to, from a path. -/
def joinNames (above : String) (names : List String) : String := names.foldl joinPath above

/-- The text before the last slash, if there is a slash. -/
def parentPath? (path : String) : Option String :=
  match path.toList.reverse.dropWhile (· ≠ '/') with
  | [] => none
  | _ :: above => some (String.ofList above.reverse)

/-- The text after the last slash, or all of it. -/
def lastName (path : String) : String :=
  String.ofList (path.toList.reverse.takeWhile (· ≠ '/')).reverse

/-- The first path goes on from the second with a slash. -/
def isBelow (path above : String) : Bool := (above.toList ++ ['/']).isPrefixOf path.toList

theorem joinPath_of_ne {above : String} (h : above ≠ "") (name : String) :
    joinPath above name = above ++ "/" ++ name := by
  simp [joinPath, h]

@[simp] theorem joinPath_empty (name : String) : joinPath "" name = name := by
  simp [joinPath]

theorem isBelow_iff (path above : String) :
    isBelow path above ↔ ∃ rest, path.toList = above.toList ++ '/' :: rest := by
  rw [isBelow, List.isPrefixOf_iff_prefix]
  constructor
  · rintro ⟨rest, h⟩
    exact ⟨rest, by simp [← h]⟩
  · rintro ⟨rest, h⟩
    exact ⟨rest, by simp [h]⟩

end LayoutCheck
