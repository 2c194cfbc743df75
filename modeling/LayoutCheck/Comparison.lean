import LayoutCheck.EntryPath
import LayoutCheck.Results
import LayoutCheck.Tree

/-!
Comparison of a declared tree with an observed one.

A comparison is a list of steps, each recording the status of a path or logging a message;
`compareSteps` walks both trees together, `missingSteps` a declared tree of which nothing is there.
`alignRoots` says which two trees are compared when the roots have different names, and
`compareRoots` compares them.
-/

namespace LayoutCheck

/-- One step of a comparison. -/
inductive Step where
  | record (path : String) (status : Status)
  | note (message : Message)
  deriving DecidableEq, Repr

namespace Step

/-- What the step records, if it records anything. -/
def entry? : Step → Option (String × Status)
  | record path status => some (path, status)
  | note _ => none

end Step

/-- Carries out the steps one after the other. -/
def Results.follow (r : Results) : List Step → Logged Results
  | [] => pure r
  | .record path status :: steps => do
    let r ← r.record path status
    r.follow steps
  | .note message :: steps => do
    Logged.tell [message]
    r.follow steps

mutual

/-- A declared tree that is absent: every path of it is missing, a directory after its contents. -/
def missingSteps (path : String) : Tree → List Step
  | .file .. => [.record path .missing]
  | .directory _ _ cs => missingBelow path cs ++ [.record path .missing]

def missingBelow (path : String) : List Tree → List Step
  | [] => []
  | c :: cs => missingSteps (joinPath path c.name) c ++ missingBelow path cs

end

/-- The entries that only the observed directory has; nothing below them is looked at. -/
def extraSteps (path : String) (declared : List Tree) (actual : Tree) : List Step :=
  (actual.childNames.filter (fun n => !declared.any (·.name = n))).map
    (fun n => .record (joinPath path n) .extra)

/-- An entry of the wrong kind; nothing below it is looked at. -/
def mismatchSteps (path : String) (declared actual : Kind) : List Step :=
  [.note ⟨.debug, s!"'{path}' should be a {declared.text} but is a {actual.text}"⟩,
    .record path .typeMismatch]

mutual

/-- Compares a declared tree that lies under `above` with the entry observed in its place. -/
def compareSteps (above : String) (actual : Option Tree) : Tree → List Step
  | .file n d =>
    let path := joinPath above n
    match actual with
    | none => missingSteps path (.file n d)
    | some a =>
      match a.kind with
      | .file => [.record path .compliant]
      | .directory => mismatchSteps path .file .directory
  | .directory n d cs =>
    let path := joinPath above n
    match actual with
    | none => missingSteps path (.directory n d cs)
    | some a =>
      match a.kind with
      | .file => mismatchSteps path .directory .file
      | .directory =>
        compareBelow path a cs ++ extraSteps path cs a ++ [.record path .compliant]

/-- Compares each declared entry with the one of its name in the observed directory at `path`. -/
def compareBelow (path : String) (actual : Tree) : List Tree → List Step
  | [] => []
  | c :: cs => compareSteps path (actual.child? c.name) c ++ compareBelow path actual cs

end

/-- The statuses of a declared tree that lies under `above`. -/
def compare (above : String) (actual : Option Tree) (declared : Tree) : Logged Results :=
  Results.empty.follow (compareSteps above actual declared)

/-- How the declared root was lined up with the observed one. -/
inductive RootMatch where
  | sameName (name : String)
  | declaredInsideActual (name : String)
  | actualInsideDeclared (name : String)
  | mismatch (declared actual : String)
  deriving DecidableEq, Repr

namespace RootMatch

def text : RootMatch → String
  | sameName n => s!"both roots are named '{n}'"
  | declaredInsideActual n => s!"declared root '{n}' found inside the scanned directory"
  | actualInsideDeclared n => s!"scanned root '{n}' found inside the declared tree"
  | mismatch d a => s!"root name mismatch: expected '{d}', got '{a}'"

end RootMatch

/-- The two trees that stand for each other, and why. -/
structure Alignment where
  matched : RootMatch
  declared : Tree
  actual : Tree

/-- The child of that name if it is a directory. -/
def Tree.directoryChild? (t : Tree) (name : String) : Option Tree :=
  (t.child? name).filter (·.isDirectory)

/--
Roots of one name stand for each other. Else the declared root is looked for among the directories
of the observed one, then the observed root among those of the declared one. When neither is found
the roots are compared as they are.
-/
def alignRoots (declared actual : Tree) : Alignment :=
  if declared.name = actual.name then
    ⟨.sameName declared.name, declared, actual⟩
  else
    match actual.directoryChild? declared.name with
    | some inner => ⟨.declaredInsideActual declared.name, declared, inner⟩
    | none =>
      match declared.directoryChild? actual.name with
      | some inner => ⟨.actualInsideDeclared actual.name, inner, actual⟩
      | none => ⟨.mismatch declared.name actual.name, declared, actual⟩

/-- Compares two roots that stand for each other: of directories only what is below is recorded. -/
def alignedSteps (declared actual : Tree) : List Step :=
  match declared.kind, actual.kind with
  | .directory, .directory =>
    compareBelow declared.name actual declared.children ++
      extraSteps declared.name declared.children actual
  | .file, .file => []
  | _, _ => compareSteps "" (some actual) declared

namespace Alignment

/-- The steps that compare the trees; roots that do not match are recorded themselves. -/
def steps (a : Alignment) : List Step :=
  match a.matched with
  | .mismatch .. =>
    .note ⟨.warn, a.matched.text⟩ :: compareSteps "" (some a.actual) a.declared
  | _ => alignedSteps a.declared a.actual

end Alignment

/-- A comparison of two whole trees. -/
structure Comparison where
  matched : RootMatch
  results : Results

/-- Compares whole trees, lining up their roots first. -/
def compareRoots (declared actual : Tree) : Logged Comparison := do
  let alignment := alignRoots declared actual
  let results ← Results.empty.follow alignment.steps
  Log.debug s!"Compared roots: {alignment.matched.text}"
  return ⟨alignment.matched, results⟩

end LayoutCheck
