import LayoutCheck.Pathname

/-!
A file system: files, directories and symbolic links, and the directory from which relative paths
are taken.

`lookUp` gives the system a path as a whole, so the path must not be too long. `resolve` asks the
system for one place on the way after the other, so the path may have any length but the absolute
paths of these places may not. `absoluteNames` also names what is not there: then the path is folded
without looking.

Permissions are left out: a file system of this kind has no files and directories that may not be
read, listed or written. So nothing here is refused by `OsError.other`; that is for what the
operating system reports to `Main`.
-/

namespace LayoutCheck

/-- What a directory lists under a name. -/
inductive Entry where
  | file (content : ByteArray)
  | link (target : String)
  | directory (entries : List (String × Entry))

namespace Entry

/-- The entry of that name among entries. -/
def find? (entries : List (String × Entry)) (name : String) : Option Entry :=
  (List.find? (fun e => e.1 = name) entries).map (·.2)

def isDirectory : Entry → Bool
  | directory _ => true
  | _ => false

/-- What the names lead to, going down from an entry; links are not followed. -/
def at? (e : Entry) : List String → Option Entry
  | [] => some e
  | n :: ns =>
    match e with
    | directory entries => (find? entries n).bind (·.at? ns)
    | _ => none

end Entry

/-- Why the system refuses a path. -/
inductive OsError where
  | notFound
  | notDirectory
  | isDirectory
  | nameTooLong
  | tooManyLinks
  | nulInPath
  | other (text : String)
  deriving DecidableEq, Repr

namespace OsError

def text : OsError → String
  | notFound => "No such file or directory (os error 2)"
  | notDirectory => "Not a directory (os error 20)"
  | isDirectory => "Is a directory (os error 21)"
  | nameTooLong => "File name too long (os error 36)"
  | tooManyLinks => "Too many levels of symbolic links (os error 40)"
  | nulInPath => "file name contained an unexpected NUL byte"
  | other text => text

end OsError

/-- The names that lead from the root to an entry, without links. -/
abbrev Place := List String

/-- A place that a walk has passed, with what is there and the bytes of its absolute path. -/
structure Stop where
  name : String
  size : Nat
  entry : Entry

/-- The places that a walk has passed on its way from the root, the last one first. -/
abbrev Trail := List Stop

namespace Trail

/-- What the walk has come to. -/
def entry (t : Trail) (root : Entry) : Entry :=
  match t with
  | [] => root
  | s :: _ => s.entry

/-- The place that the walk has come to. -/
def place (t : Trail) : Place := t.reverse.map (·.name)

/-- How many bytes the absolute path has of an entry of that name. -/
def sizeBelow (t : Trail) (name : String) : Nat :=
  (t.head?.map (·.size)).getD 0 + 1 + name.utf8ByteSize

def down (t : Trail) (name : String) (entry : Entry) : Trail :=
  ⟨name, t.sizeBelow name, entry⟩ :: t

/-- Goes down to a place, along the trail. -/
def extend? (root : Entry) (t : Trail) : Place → Option Trail
  | [] => some t
  | n :: ns =>
    match t.entry root with
    | .directory entries => (Entry.find? entries n).bind (fun e => extend? root (t.down n e) ns)
    | _ => none

end Trail

/-- How far a path leads until a link has to be followed. -/
inductive Advance where
  | arrived (trail : Trail)
  | linked (trail : Trail) (target : String) (rest : List Pathname.Step)
  | refused (error : OsError)

structure FileSystem where
  root : Entry
  current : Place

namespace FileSystem

/-- A name has at most so many bytes. -/
def maxNameSize : Nat := 255

/-- A path has fewer bytes than this. -/
def maxPathSize : Nat := 4096

/-- So many links are followed along one path. -/
def maxLinks : Nat := 40

/-- How many bytes the absolute paths may have of the places that a walk comes to. -/
abbrev Reach := Nat → Bool

/-- Every place. -/
def anywhere : Reach := fun _ => true

/-- The places with an absolute path that is not too long. -/
def nameable : Reach := fun size => size < maxPathSize

/-- Goes along the steps as far as no link is met. Every step begins in a directory. -/
def advance (root : Entry) (reach : Reach) (trail : Trail) : List Pathname.Step → Advance
  | [] => .arrived trail
  | s :: ss =>
    match trail.entry root with
    | .directory entries =>
      match s with
      | .stay => advance root reach trail ss
      | .up => advance root reach trail.tail ss
      | .down n =>
        if maxNameSize < n.utf8ByteSize || !reach (trail.sizeBelow n) then .refused .nameTooLong
        else
          match Entry.find? entries n with
          | none => .refused .notFound
          | some (.link target) => .linked trail target ss
          | some entry => advance root reach (trail.down n entry) ss
    | _ => .refused .notDirectory

/-- The steps of a path; one with a trailing slash needs a directory at its end. -/
def stepsOf (p : Pathname) : List Pathname.Step :=
  if p.trailingSlash then p.steps ++ [.stay] else p.steps

/-- Where a path begins that is met on a walk. -/
def originOf (p : Pathname) (trail : Trail) : Trail := if p.absolute then [] else trail

/-- Goes along the steps, following so many links at most; also gives how many could still be. -/
def follow (root : Entry) (reach : Reach) :
    (links : Nat) → Trail → List Pathname.Step → Except OsError (Trail × Nat)
  | links, trail, steps =>
    match advance root reach trail steps with
    | .arrived trail => .ok (trail, links)
    | .refused error => .error error
    | .linked trail target rest =>
      match links with
      | 0 => .error .tooManyLinks
      | links + 1 =>
        let p := Pathname.ofString target
        follow root reach links (originOf p trail) (stepsOf p ++ rest)

/-- The trail that goes straight to a place. -/
def trailTo (root : Entry) (place : Place) : Except OsError Trail :=
  match Trail.extend? root [] place with
  | some trail => .ok trail
  | none => .error .notFound

/-- Where a path begins. -/
def start (fs : FileSystem) (p : Pathname) : Except OsError Trail :=
  if p.absolute then .ok [] else trailTo fs.root fs.current

/-- Refuses the texts that are no paths. -/
def checkText (path : String) : Except OsError Unit :=
  if path.toList.contains '\x00' then .error .nulInPath
  else if path = "" then .error .notFound
  else .ok ()

/-- Refuses the texts that are no paths or are too long for the system. -/
def checkPath (path : String) : Except OsError Unit := do
  checkText path
  if maxPathSize ≤ path.utf8ByteSize then throw .nameTooLong

/-- The walk along a path, links included, with that reach. -/
def walk (fs : FileSystem) (reach : Reach) (path : String) : Except OsError Trail := do
  let p := Pathname.ofString path
  let (trail, _) ← follow fs.root reach maxLinks (← fs.start p) (stepsOf p)
  return trail

/-- What the system finds that a path leads to. -/
def lookUp (fs : FileSystem) (path : String) : Except OsError Entry := do
  checkPath path
  return (← fs.walk anywhere path).entry fs.root

/-- The place to which a path leads, found by asking for each place on the way. -/
def resolve (fs : FileSystem) (path : String) : Except OsError Place := do
  checkText path
  return (← fs.walk nameable path).place

/-- The bytes of a file. -/
def readBytes (fs : FileSystem) (path : String) : Except OsError ByteArray := do
  match ← fs.lookUp path with
  | .file content => return content
  | .directory _ => throw .isDirectory
  | .link _ => throw .tooManyLinks

/-- The path of the current directory. -/
def currentPath (fs : FileSystem) : Pathname := .ofNames true fs.current

/-- The names of the absolute path: where it leads if it exists, else the path itself, folded. -/
def absoluteNames (fs : FileSystem) (path : String) : Place :=
  match fs.resolve path with
  | .ok place => place
  | .error _ => (fs.currentPath.join (.ofString path)).names

/-- The absolute path as text. -/
def display (fs : FileSystem) (path : String) : String := absoluteText (fs.absoluteNames path)

/-- The last name of the absolute path; the root has none. -/
def baseName (fs : FileSystem) (path : String) : Option String := (fs.absoluteNames path).getLast?

end FileSystem

end LayoutCheck
