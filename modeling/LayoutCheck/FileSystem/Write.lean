import LayoutCheck.FileSystem

/-!
Changes of a file system: a file is written, directories and links are made.

`write` replaces the content of a file or creates it in a directory that is there, as the system
does; a link is written through. The other operations also make the directories on the way.
-/

namespace LayoutCheck

namespace Entry

/-- Puts an entry among entries: in the place of the one of its name, else last. -/
def put (name : String) (entry : Entry) : List (String × Entry) → List (String × Entry)
  | [] => [(name, entry)]
  | e :: es => if e.1 = name then (name, entry) :: es else e :: put name entry es

/-- Puts an entry into the directory at a place below this one; nothing happens elsewhere. -/
def putAt (e : Entry) (place : Place) (name : String) (entry : Entry) : Entry :=
  match e, place with
  | directory es, [] => directory (put name entry es)
  | directory es, n :: ns =>
    directory (es.map (fun d => if d.1 = n then (n, d.2.putAt ns name entry) else d))
  | e, _ => e
termination_by structural place

end Entry

namespace FileSystem

/--
The directory and the name of the file to which a path leads for writing, which need not be there.
`fuel` exceeds the number of links that may be followed.
-/
def writePlace (root : Entry) :
    (fuel links : Nat) → (origin : Trail) → Pathname → Except OsError (Place × String)
  | 0, _, _, _ => .error .tooManyLinks
  | fuel + 1, links, origin, p =>
    match p.steps.getLast? with
    | none => .error .isDirectory
    | some last => do
      let (trail, links) ← follow root anywhere links origin p.steps.dropLast
      match trail.entry root, last with
      | .directory entries, .down n =>
        if p.trailingSlash then .error .isDirectory
        else if maxNameSize < n.utf8ByteSize then .error .nameTooLong
        else
          match Entry.find? entries n with
          | some (.directory _) => .error .isDirectory
          | some (.link target) =>
            if links = 0 then .error .tooManyLinks
            else
              let q := Pathname.ofString target
              writePlace root fuel (links - 1) (originOf q trail) q
          | _ => .ok (trail.place, n)
      | .directory _, _ => .error .isDirectory
      | _, _ => .error .notDirectory

/-- Gives the file at the path this content. -/
def write (fs : FileSystem) (path : String) (content : ByteArray) : Except OsError FileSystem := do
  checkPath path
  let p := Pathname.ofString path
  let (place, name) ← writePlace fs.root (maxLinks + 1) maxLinks (← fs.start p) p
  return { fs with root := fs.root.putAt place name (.file content) }

/-- Makes the directories that are missing along the steps; gives the tree and where they lead. -/
def makeSteps (root : Entry) (place : Place) : List Pathname.Step → Except OsError (Entry × Place)
  | [] => .ok (root, place)
  | s :: ss => do
    match follow root anywhere maxLinks (← trailTo root place) [s], s with
    | .ok (next, _), _ => makeSteps root next.place ss
    | .error .notFound, .down n =>
      makeSteps (root.putAt place n (.directory [])) (place ++ [n]) ss
    | .error e, _ => .error e

/-- Makes a directory and the missing ones above it. -/
def makeDirectories (fs : FileSystem) (path : String) : Except OsError FileSystem := do
  let p := Pathname.ofString path
  let (root, _) ← makeSteps fs.root (← fs.start p).place p.steps
  return { fs with root := root }

/-- Makes the missing directories above the path; gives the directory and the name in it. -/
def makeParents (fs : FileSystem) (path : String) :
    Except OsError (FileSystem × Place × String) := do
  let p := Pathname.ofString path
  let (root, place) ← makeSteps fs.root (← fs.start p).place p.steps.dropLast
  match p.steps.getLast? with
  | some (.down name) => return ({ fs with root := root }, place, name)
  | _ => throw .isDirectory

/-- Writes a file and makes the missing directories above it. -/
def addFile (fs : FileSystem) (path : String) (content : ByteArray) :
    Except OsError FileSystem := do
  let (fs, _) ← fs.makeParents path
  fs.write path content

/-- Makes a link and the missing directories above it. -/
def addLink (fs : FileSystem) (path target : String) : Except OsError FileSystem := do
  let (fs, place, name) ← fs.makeParents path
  return { fs with root := fs.root.putAt place name (.link target) }

end FileSystem

end LayoutCheck
