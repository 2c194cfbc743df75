import LayoutCheck.Log

/-!
Trees of files and directories, declared or observed.

A tree is built with `leaf`, `branch` and `describe`. `branch` keeps one entry for each name: the
last one given, at the place of the first (`mem_names_place`, `find?_place`). Everything else only
reads trees. `Tree.induction` is the induction that reasoning about them uses.
-/

namespace LayoutCheck

/-- Whether an entry is a regular file or a directory. -/
inductive Kind where
  | file
  | directory
  deriving DecidableEq, Repr

namespace Kind

def text : Kind → String
  | file => "file"
  | directory => "directory"

end Kind

/-- A file or a directory with everything below it. -/
inductive Tree where
  | file (name : String) (description : Option String)
  | directory (name : String) (description : Option String) (children : List Tree)
  deriving Repr

namespace Tree

/-- Induction over a tree: a directory may use what holds of each of its children. -/
@[elab_as_elim]
theorem induction {P : Tree → Prop} (file : ∀ n d, P (.file n d))
    (directory : ∀ n d cs, (∀ c ∈ cs, P c) → P (.directory n d cs)) (t : Tree) : P t :=
  @Tree.rec P (fun cs => ∀ c ∈ cs, P c) file directory
    (by simp) (fun c cs hc hcs => by simpa using ⟨hc, hcs⟩) t

mutual

protected def decEq : (s t : Tree) → Decidable (s = t)
  | .file n d, .file m e =>
    if h : n = m ∧ d = e then isTrue (by rw [h.1, h.2])
    else isFalse (by simpa using h)
  | .directory n d cs, .directory m e ds =>
    match Tree.decEqAll cs ds with
    | isTrue hc =>
      if h : n = m ∧ d = e then isTrue (by rw [h.1, h.2, hc])
      else isFalse (by intro hd; injection hd with hn he; exact h ⟨hn, he⟩)
    | isFalse hc => isFalse (by simp [hc])
  | .file .., .directory .. => isFalse (by simp)
  | .directory .., .file .. => isFalse (by simp)

protected def decEqAll : (ss ts : List Tree) → Decidable (ss = ts)
  | [], [] => isTrue rfl
  | [], _ :: _ => isFalse (by simp)
  | _ :: _, [] => isFalse (by simp)
  | s :: ss, t :: ts =>
    match Tree.decEq s t, Tree.decEqAll ss ts with
    | isTrue h, isTrue hs => isTrue (by rw [h, hs])
    | isFalse h, _ => isFalse (by simp [h])
    | _, isFalse hs => isFalse (by simp [hs])

end

instance : DecidableEq Tree := Tree.decEq

def name : Tree → String
  | file n _ => n
  | directory n _ _ => n

def kind : Tree → Kind
  | file .. => .file
  | directory .. => .directory

def isDirectory (t : Tree) : Bool := t.kind = .directory

def description : Tree → Option String
  | file _ d => d
  | directory _ d _ => d

/-- The entries directly below; a file has none. -/
def children : Tree → List Tree
  | file .. => []
  | directory _ _ cs => cs

/-- A file without a description. -/
def leaf (name : String) : Tree := .file name none

/-- Puts an entry among its siblings: in the place of the one of its name, else last. -/
def place (entry : Tree) : List Tree → List Tree
  | [] => [entry]
  | c :: cs => if c.name = entry.name then entry :: cs else c :: place entry cs

/-- One entry for each name: the last of that name, where the first stood. -/
def arrange (entries : List Tree) : List Tree :=
  entries.foldl (fun placed entry => place entry placed) []

/-- A directory of the given entries, without a description. -/
def branch (name : String) (entries : List Tree) : Tree := .directory name none (arrange entries)

/-- Attaches a description; an empty one stands for none. -/
def describe (t : Tree) (text : String) : Tree :=
  let d := if text = "" then none else some text
  match t with
  | file n _ => .file n d
  | directory n _ cs => .directory n d cs

/-- One warning for each entry whose name an earlier one has, in the order of the entries. -/
def repeatWarnings (directory : String) (entries : List Tree) : List Message :=
  go [] entries
where
  go (seen : List String) : List Tree → List Message
    | [] => []
    | e :: es =>
      if e.name ∈ seen then
        ⟨.warn, s!"Duplicate entry under '{directory}', keeping the last declaration"⟩ ::
          go seen es
      else go (e.name :: seen) es

/-- `branch`, with its warnings about repeated names. -/
def branchLogged (name : String) (entries : List Tree) : Logged Tree :=
  ⟨branch name entries, repeatWarnings name entries⟩

def childNames (t : Tree) : List String := t.children.map name

/-- The child of that name. -/
def child? (t : Tree) (name : String) : Option Tree := t.children.find? (·.name = name)

def hasChild (t : Tree) (name : String) : Bool := (t.child? name).isSome

/-- What a path of names leads to. -/
def resolve? (t : Tree) : List String → Option Tree
  | [] => some t
  | n :: ns => (t.child? n).bind (·.resolve? ns)

mutual

/-- How many entries are below, at any depth. -/
def descendantCount : Tree → Nat
  | file .. => 0
  | directory _ _ cs => countAll cs

/-- How many entries a list of trees has. -/
def countAll : List Tree → Nat
  | [] => 0
  | c :: cs => 1 + c.descendantCount + countAll cs

end

@[simp] theorem name_describe (t : Tree) (text : String) : (t.describe text).name = t.name := by
  cases t <;> rfl

@[simp] theorem kind_describe (t : Tree) (text : String) : (t.describe text).kind = t.kind := by
  cases t <;> rfl

@[simp] theorem children_describe (t : Tree) (text : String) :
    (t.describe text).children = t.children := by
  cases t <;> rfl

/-- Placing an entry adds its name unless it is there already. -/
theorem mem_names_place (entry : Tree) (cs : List Tree) (n : String) :
    n ∈ (place entry cs).map name ↔ n = entry.name ∨ n ∈ cs.map name := by
  induction cs with
  | nil => simp [place]
  | cons c cs ih =>
    by_cases h : c.name = entry.name
    · simp [place, h]
    · simp only [place, h, ↓reduceIte, List.map_cons, List.mem_cons, ih]
      exact or_left_comm

/-- After an entry is placed, its name leads to it and every other name to what it led to. -/
theorem find?_place (entry : Tree) (cs : List Tree) (n : String) :
    (place entry cs).find? (·.name = n) =
      if n = entry.name then some entry else cs.find? (·.name = n) := by
  induction cs with
  | nil => by_cases h : entry.name = n <;> simp [place, h, eq_comm]
  | cons c cs ih =>
    by_cases h : c.name = entry.name
    · by_cases hn : n = entry.name
      · simp [place, h, hn]
      · simp [place, h, hn, Ne.symm hn]
    · by_cases hn : n = entry.name
      · subst hn
        simpa [place, h] using ih
      · simp [place, h, hn, ih, List.find?_cons]

end Tree

end LayoutCheck
