/-!
What a check can find at one path.
-/

namespace LayoutCheck

/-- The outcome for one path. -/
inductive Status where
  | compliant
  | missing
  | extra
  | typeMismatch
  deriving DecidableEq, Repr

namespace Status

def text : Status → String
  | compliant => "[OK] Compliant"
  | missing => "[MISSING] Missing"
  | extra => "[EXTRA] Extra"
  | typeMismatch => "[TYPE] Type Mismatch"

/-- Every status, in the order of reports. -/
def all : List Status := [compliant, missing, extra, typeMismatch]

/-- The statuses that make a check fail, in the order in which they are listed. -/
def issues : List Status := [missing, extra, typeMismatch]

theorem mem_all (s : Status) : s ∈ all := by cases s <;> decide

theorem mem_issues_iff (s : Status) : s ∈ issues ↔ s ≠ compliant := by cases s <;> decide

end Status

end LayoutCheck
