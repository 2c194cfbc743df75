import LayoutCheck.CommandLine
import Std.Data.HashMap

/-!
The program: reads files and directories, has them checked, and writes what the check leaves.
-/

namespace LayoutCheck.Program

/-- The number of a system error; some come negated in 32 bits. -/
def errorNumber (code : UInt32) : Nat := min code.toNat (-code).toNat

def osError (e : IO.Error) : OsError :=
  match e with
  | .noFileOrDirectory .. => .notFound
  | .permissionDenied .. => .other "Permission denied (os error 13)"
  | .inappropriateType _ code _ =>
    match errorNumber code with
    | 20 => .notDirectory
    | 21 => .isDirectory
    | _ => .other e.toString
  | .invalidArgument _ code _ =>
    match errorNumber code with
    | 36 => .nameTooLong
    | 40 => .tooManyLinks
    | _ => .other e.toString
  | _ => .other e.toString

/-- The absolute path without links, if there is something at the path. -/
def canonical? (path : String) : IO (Option String) := do
  try
    return some (← IO.FS.realPath path).toString
  catch _ => return none

/-- The names of the absolute path. -/
def absoluteNames (path : String) : IO (List String) := do
  match ← canonical? path with
  | some absolute => return (Pathname.ofString absolute).names
  | none => do
    let current ← IO.currentDir
    return ((Pathname.ofString current.toString).join (.ofString path)).names

def readText (path : String) : IO (Except ReadError String) := do
  try
    match String.fromUTF8? (← IO.FS.readBinFile path) with
    | some text => return .ok text
    | none => return .error .notText
  catch e => return .error (.os (osError e))

/-- The text as a path of the system. -/
def systemPath (path : String) := (IO.FS.DirEntry.mk path "").root

def listDirectory (path : String) : IO (Except String (List (Listed String))) := do
  try
    let entries ← (systemPath path).readDir
    let listed ← entries.toList.mapM fun e => do
      let below := childPath path e.fileName
      return ⟨e.fileName, if ← (systemPath below).isDir then some below else none⟩
    return .ok listed
  catch e => return .error (osError e).text

/-- What was learnt of the directories on the ways of a scan. -/
structure Survey where
  places : Std.HashMap String String
  listings : Std.HashMap String (Except String (List (Listed String)))

namespace Survey

def empty : Survey := ⟨∅, ∅⟩

/-- Adds a directory and all that a scan enters from it, below ancestors at those places. -/
partial def extend (extra ancestors : List String) (s : Survey) (path : String) : IO Survey := do
  let place := (← canonical? path).toList
  let s := { s with places := s.places.insertMany (place.map (path, ·)) }
  if place.any ancestors.contains then return s
  let listing ← listDirectory path
  let s := { s with listings := s.listings.insert path listing }
  match listing with
  | .error _ => return s
  | .ok entries =>
    ((Scan.visible extra entries).filterMap (·.way)).foldlM (extend extra (place ++ ancestors)) s

def surroundings (s : Survey) : BoundedSurroundings String String :=
  .ofPaths (fun path => s.places[path]?)
    (fun path => s.listings.getD path (.error OsError.notFound.text))

end Survey

def scanRoot (path : String) : IO (Scan.Root String) := do
  let names ← absoluteNames path
  let way : Except OsError (Option String) ←
    try
      let _ ← (systemPath path).metadata
      pure (.ok (if ← (systemPath path).isDir then some path else none))
    catch e => pure (.error (osError e))
  return ⟨path, absoluteText names, names.getLast?, way⟩

def scan (extra : List String) (path : String) : IO (Attempt Scan.ScanError Tree) := do
  let root ← scanRoot path
  let survey ←
    match root.way with
    | .ok (some way) => Survey.empty.extend extra [] way
    | _ => pure .empty
  return Scan.scan survey.surroundings extra root

def save (o : CheckOptions) (report : Report) : IO Saved := do
  match o.output with
  | none => return .notAsked
  | some path =>
    let failure : Option OsError ←
      try
        IO.FS.writeBinFile path (o.document .plain report).toUTF8
        pure none
      catch e => pure (some (osError e))
    let display := absoluteText (← absoluteNames path)
    return match failure with
      | none => .saved display
      | some cause => .failed display cause

open CommandLine

/-- Carries out the arguments. Without a declared tree nothing is scanned. -/
def run (a : Arguments) (style : Style) : IO Exit := do
  let o := a.check
  let display := absoluteText (← absoluteNames o.specification)
  let declared := Specification.load o.dialect display (← readText o.specification)
  match declared.outcome with
  | .error e => return exitOfCheck a (.error (.specification e)) "" declared.messages
  | .ok _ => do
    let checked := check declared (← scan o.ignored o.root)
    match checked.outcome with
    | .error e => return exitOfCheck a (.error e) "" checked.messages
    | .ok report => do
      let saved ← save o report
      let messages := checked.messages ++ saved.warnings
      return exitOfCheck a (.ok report) (o.printed style report saved) messages

end LayoutCheck.Program

/-- Colours are for terminals. -/
def main (arguments : List String) : IO UInt32 := do
  let style : LayoutCheck.Style := if ← (← IO.getStdout).isTty then .colored else .plain
  let exit ←
    match LayoutCheck.CommandLine.parse arguments with
    | .error i => pure i.exit
    | .ok a => LayoutCheck.Program.run a style
  IO.eprint exit.errors
  IO.print exit.output
  return exit.code.toUInt32
