import LayoutCheck.Comparison
import LayoutCheck.ErrorReport
import LayoutCheck.FileSystem.Surroundings
import LayoutCheck.FileSystem.Write
import LayoutCheck.Report.Text
import LayoutCheck.Specification.Load

/-!
A whole check: the declared tree is loaded, the observed one scanned, both are compared, and the
report is printed and saved.

`check` makes the report from what was read. `FileSystem.runCheck` does all of it in a file system.
-/

namespace LayoutCheck

/-- What to check and how to report. -/
structure CheckOptions where
  specification : String
  root : String
  output : Option String
  dialect : Specification.Dialect
  /-- names that a scan passes over -/
  ignored : List String
  suggest : Bool
  limit : Nat
  deriving DecidableEq, Repr

/-- Why there is no report. -/
inductive CheckError where
  | specification (cause : Specification.LoadError)
  | scan (cause : Scan.ScanError)
  deriving DecidableEq, Repr

namespace CheckError

def message : CheckError → String
  | specification _ => "Could not load the architecture specification"
  | scan _ => "Could not scan the project directory"

/-- The texts of this error and of those behind it. -/
def chain (e : CheckError) : List String :=
  e.message ::
    match e with
    | specification cause => cause.message :: cause.causes
    | scan cause => cause.message :: cause.cause?.toList

end CheckError

/-- The report on two trees. -/
def compareTrees (declared actual : Tree) : Logged Report := do
  Log.info s!"Scanned {Nat.repr actual.descendantCount} entries under '{actual.name}'"
  Log.debug s!"Scanned tree:\n{actual.outline}"
  let comparison ← compareRoots declared actual
  Log.info s!"Compared {Nat.repr comparison.results.size} paths ({comparison.matched.text})"
  return .ofResults comparison.results

/-- The report, from the declared tree and the observed one. -/
def check (declared : Attempt Specification.LoadError Tree) (actual : Attempt Scan.ScanError Tree) :
    Attempt CheckError Report := do
  let declared ← declared.mapError .specification
  let actual ← actual.mapError .scan
  compareTrees declared actual

/-- What became of the file in which the report was to be saved. -/
inductive Saved where
  | notAsked
  | saved (display : String)
  | failed (display : String) (cause : OsError)

namespace Saved

/-- A report that could not be saved is worth a warning. -/
def warnings : Saved → List Message
  | failed display cause =>
    [⟨.warn, ErrorReport.render [s!"Could not save the report to {display}", cause.text]⟩]
  | _ => []

def text : Saved → String
  | saved display => s!"\nDetailed report saved to: {display}\n"
  | _ => ""

end Saved

namespace CheckOptions

/-- The remediation of a report, if it was asked for. -/
def remediation (o : CheckOptions) (report : Report) : Option Remediation :=
  if o.suggest then some (report.remediation o.limit) else none

/-- The report and the remediation as text. -/
def document (o : CheckOptions) (style : Style) (report : Report) : String :=
  renderDocument report (o.remediation report) style

/-- What is printed: the document, what became of its file, and the verdict. -/
def printed (o : CheckOptions) (style : Style) (report : Report) (saved : Saved) : String :=
  o.document style report ++ "\n" ++ saved.text ++ "\n" ++ report.verdict style ++ "\n"

end CheckOptions

/-- A check that was run: its outcome, what it printed, and the file system after it. -/
structure CheckRun where
  outcome : Except CheckError Report
  printed : String
  files : FileSystem

namespace FileSystem

/-- Saves the plain document if that was asked for. -/
def saveReport (fs : FileSystem) (o : CheckOptions) (report : Report) : Saved × FileSystem :=
  match o.output with
  | none => (.notAsked, fs)
  | some path =>
    match fs.write path (o.document .plain report).toUTF8 with
    | .ok after => (.saved (after.display path), after)
    | .error cause => (.failed (fs.display path) cause, fs)

/-- Runs a check; without a report nothing is printed and no file is changed. -/
def runCheck (fs : FileSystem) (o : CheckOptions) (style : Style) : Logged CheckRun := do
  let declared := fs.loadSpecification o.dialect o.specification
  let actual := fs.scan o.ignored o.root
  match ← (check declared actual).run with
  | .error e => return ⟨.error e, "", fs⟩
  | .ok report => do
    let (saved, after) := fs.saveReport o report
    Logged.tell saved.warnings
    return ⟨.ok report, o.printed style report saved, after⟩

end FileSystem

end LayoutCheck
