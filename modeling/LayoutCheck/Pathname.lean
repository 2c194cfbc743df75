/-!
Paths of the file system as text and as steps.

`normalize` folds the steps that stay and the steps that go up, without looking at the file system.
`normalize_join` says that a path can be folded before another one is joined to it.
-/

namespace LayoutCheck

/-- A step of a path: it stays in the directory, goes up or goes down to an entry. -/
inductive Pathname.Step where
  | stay
  | up
  | down (name : String)
  deriving DecidableEq, Repr

/-- A path; one that ends with a slash leads to a directory. -/
structure Pathname where
  absolute : Bool
  steps : List Pathname.Step
  trailingSlash : Bool
  deriving DecidableEq, Repr

namespace Pathname

/-- What stands between slashes. -/
def pieces : List Char → List (List Char)
  | [] => [[]]
  | c :: cs =>
    if c = '/' then [] :: pieces cs
    else
      match pieces cs with
      | [] => [[c]]
      | p :: ps => (c :: p) :: ps

/-- The step that a piece stands for; an empty one stands for none. -/
def stepOf? (piece : List Char) : Option Step :=
  if piece = [] then none
  else if piece = ['.'] then some .stay
  else if piece = ['.', '.'] then some .up
  else some (.down (String.ofList piece))

def ofString (text : String) : Pathname :=
  let cs := text.toList
  ⟨cs.head? = some '/', (pieces cs).filterMap stepOf?, cs.getLast? = some '/'⟩

/-- The second path, taken from where the first one leads. -/
def join (p q : Pathname) : Pathname :=
  if q.absolute then q else ⟨p.absolute, p.steps ++ q.steps, q.trailingSlash⟩

/-- The names that are left when a step up takes back the last step down; the last name is first. -/
def fold (names : List String) : List Step → List String
  | [] => names
  | .stay :: ss => fold names ss
  | .up :: ss => fold names.tail ss
  | .down n :: ss => fold (n :: names) ss

/-- The names of the steps down that are not taken back. -/
def names (p : Pathname) : List String := (fold [] p.steps).reverse

/-- The path that goes down through the names. -/
def ofNames (absolute : Bool) (names : List String) : Pathname :=
  ⟨absolute, names.map .down, false⟩

def normalize (p : Pathname) : Pathname := ofNames p.absolute p.names

theorem fold_append (names : List String) (ss ts : List Step) :
    fold names (ss ++ ts) = fold (fold names ss) ts := by
  fun_induction fold names ss <;> simp_all [fold]

theorem fold_down (names ns : List String) :
    fold names (ns.map .down) = ns.reverse ++ names := by
  induction ns generalizing names with
  | nil => rfl
  | cons n ns ih => simp [fold, ih]

theorem fold_reverse_down (names ns : List String) :
    fold names (ns.map .down).reverse = ns ++ names := by
  rw [← List.map_reverse, fold_down, List.reverse_reverse]

@[simp] theorem names_ofNames (absolute : Bool) (ns : List String) :
    (ofNames absolute ns).names = ns := by
  simp [names, ofNames, fold_down]

theorem normalize_normalize (p : Pathname) : p.normalize.normalize = p.normalize := by
  rw [normalize, normalize, names_ofNames]
  rfl

theorem normalize_join (p q : Pathname) :
    (p.join q).normalize = (p.normalize.join q).normalize := by
  unfold join
  split
  · rfl
  · simp [normalize, ofNames, names, fold_append, fold_reverse_down]

end Pathname

/-- The text of the absolute path that goes down through the names. -/
def absoluteText (names : List String) : String := "/" ++ String.intercalate "/" names

theorem absoluteText_concat {names : List String} (h : names ≠ []) (name : String) :
    absoluteText (names ++ [name]) = absoluteText names ++ "/" ++ name := by
  rw [absoluteText, absoluteText, String.intercalate_append_of_ne_nil h (List.cons_ne_nil name [])]
  simp [String.append_assoc]

end LayoutCheck
