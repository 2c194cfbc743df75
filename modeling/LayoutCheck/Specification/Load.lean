import LayoutCheck.FileSystem
import LayoutCheck.Specification.Document
import LayoutCheck.Tree.Outline

/-!
Specification documents as files.
-/

namespace LayoutCheck

/-- Why a file cannot be read as text. -/
inductive ReadError where
  | os (cause : OsError)
  | notText
  deriving DecidableEq, Repr

namespace ReadError

def text : ReadError → String
  | os cause => cause.text
  | notText => "stream did not contain valid UTF-8"

end ReadError

/-- The text of a file. -/
def FileSystem.readText (fs : FileSystem) (path : String) : Except ReadError String :=
  match fs.readBytes path with
  | .error cause => .error (.os cause)
  | .ok bytes =>
    match String.fromUTF8? bytes with
    | some text => .ok text
    | none => .error .notText

namespace Specification

/-- Why a file declares no tree. -/
inductive LoadError where
  | notFound (display : String)
  | read (display : String) (cause : ReadError)
  | parse (display : String) (cause : ParseError)
  deriving DecidableEq, Repr

namespace LoadError

def message : LoadError → String
  | notFound display => s!"Specification file not found: {display}"
  | read display _ => s!"Failed to read the specification file: {display}"
  | parse display _ => s!"Invalid specification file: {display}"

/-- The texts of the errors behind this one, the nearest first. -/
def causes : LoadError → List String
  | notFound _ => []
  | read _ cause => [cause.text]
  | parse _ cause => cause.message :: cause.cause?.toList

end LoadError

/-- The tree that a file declares; `display` is its absolute path. -/
def load (dialect : Dialect) (display : String) (contents : Except ReadError String) :
    Attempt LoadError Tree := do
  Log.debug s!"Opening specification file: {display}"
  match contents with
  | .error (.os .notFound) => throw (.notFound display)
  | .error cause => throw (.read display cause)
  | .ok text =>
    Log.debug s!"Read specification file: {Nat.repr text.utf8ByteSize} bytes"
    let tree ← (parse dialect text).mapError (.parse display)
    Log.debug s!"Parsed specification tree:\n{tree.outline}"
    return tree

end Specification

/-- The tree that the file at a path declares. -/
def FileSystem.loadSpecification (fs : FileSystem) (dialect : Specification.Dialect)
    (path : String) : Attempt Specification.LoadError Tree :=
  Specification.load dialect (fs.display path) (fs.readText path)

end LayoutCheck
