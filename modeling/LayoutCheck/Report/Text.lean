import LayoutCheck.Report.Remediation
import LayoutCheck.Report.Tenths

/-!
The texts of a report, of a remediation and of the verdict, plain or in the colours of a terminal.

Colours wrap whole headings and statuses, so removing them gives the plain text.
-/

namespace LayoutCheck

/-- Whether text carries the colours of a terminal. -/
inductive Style where
  | plain
  | colored
  deriving DecidableEq, Repr

namespace Style

/-- The code that selects a rendition. -/
def escape (code : String) : String := "\x1b[" ++ code ++ "m"

/-- Text in the rendition of the code; no text needs none. -/
def paint (style : Style) (code text : String) : String :=
  match style with
  | plain => text
  | colored => if text = "" then "" else escape code ++ text ++ escape "0"

def heading (style : Style) (text : String) : String := style.paint "1" text

/-- The colour of a status. -/
def code : Status → String
  | .compliant => "32"
  | .missing => "31"
  | .extra => "33"
  | .typeMismatch => "35"

/-- Text in the colour of a status. -/
def status (style : Style) (s : Status) (text : String) : String := style.paint (code s) text

end Style

/-- The lines, each ended. -/
def lines (ls : List String) : String := String.join (ls.map (· ++ "\n"))

namespace Report

def rule : String := String.ofList (List.replicate 80 '=')

/-- The numbers of the statuses that occur. -/
def summaryLines (r : Report) (style : Style) : List String :=
  (Status.all.filter (fun s => 0 < r.counts.get s)).map
    (fun s => "  " ++ style.status s s.text ++ ": " ++ Nat.repr (r.counts.get s))

/-- The paths of one status under its name; nothing if there is none. -/
def listingLines (r : Report) (style : Style) (s : Status) : List String :=
  match r.pathsWith s with
  | [] => []
  | paths => (style.status s s.text ++ ":") :: paths.map ("  " ++ ·) ++ [""]

/-- How much of what was declared is compliant. -/
def complianceText (c : Counts) : String :=
  match c.percentage with
  | some p =>
    tenthsText p ++ "% (" ++ Nat.repr c.compliant ++ "/" ++ Nat.repr c.expectedTotal ++ ")"
  | none => "n/a (nothing declared)"

/-- The report as text; its last line is not ended. -/
def render (r : Report) (style : Style) : String :=
  lines ([rule, style.heading "Architecture Compliance Report", rule, "Summary:"] ++
    r.summaryLines style ++ [""] ++ Status.issues.flatMap (r.listingLines style)) ++
  style.heading "Overall Compliance:" ++ " " ++ complianceText r.counts

/-- The verdict in one line, not ended. -/
def verdict (r : Report) (style : Style) : String :=
  if r.isCompliant then style.status .compliant "Architecture compliance check passed!"
  else
    let c := r.counts
    style.status .missing ("Architecture compliance check failed: " ++ Nat.repr c.missing ++
      " missing, " ++ Nat.repr c.extra ++ " extra, " ++ Nat.repr c.typeMismatch ++
      " type mismatches")

end Report

namespace Remediation

/-- The items one below the other and how many were left out; no text if there are no items. -/
def render (r : Remediation) (style : Style) : String :=
  if r.isEmpty then ""
  else
    style.heading "Implementation priorities:" ++ String.join (r.items.map ("\n  - " ++ ·)) ++
      (if 0 < r.omitted then "\n  ... and " ++ Nat.repr r.omitted ++ " more." else "")

end Remediation

/-- The report and, if there is anything in it, the remediation. -/
def renderDocument (report : Report) (remediation : Option Remediation) (style : Style) : String :=
  report.render style ++
    (match remediation with
    | some r => if r.isEmpty then "" else "\n\n" ++ r.render style
    | none => "") ++ "\n"

end LayoutCheck
