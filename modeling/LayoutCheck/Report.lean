import LayoutCheck.Results

/-!
The report of a comparison: the paths of each status in ascending order, their numbers, and the
share of the declared paths that is compliant.
-/

namespace LayoutCheck

/-- How many paths have each status. -/
structure Counts where
  compliant : Nat
  missing : Nat
  extra : Nat
  typeMismatch : Nat
  deriving DecidableEq, Repr

namespace Counts

def get (c : Counts) : Status → Nat
  | .compliant => c.compliant
  | .missing => c.missing
  | .extra => c.extra
  | .typeMismatch => c.typeMismatch

/-- The paths that were declared; extras are not. -/
def expectedTotal (c : Counts) : Nat := c.compliant + c.missing + c.typeMismatch

def issues (c : Counts) : Nat := c.missing + c.extra + c.typeMismatch

/-- The share of the declared paths that is compliant, in hundredths; none if none was declared. -/
def percentage (c : Counts) : Option Float :=
  if c.expectedTotal = 0 then none
  else some (100.0 * Float.ofNat c.compliant / Float.ofNat c.expectedTotal)

end Counts

/-- The paths of each status. -/
structure Report where
  compliant : List String
  missing : List String
  extra : List String
  typeMismatch : List String
  deriving DecidableEq, Repr

namespace Report

def ofResults (r : Results) : Report where
  compliant := r.pathsWith .compliant
  missing := r.pathsWith .missing
  extra := r.pathsWith .extra
  typeMismatch := r.pathsWith .typeMismatch

def pathsWith (r : Report) : Status → List String
  | .compliant => r.compliant
  | .missing => r.missing
  | .extra => r.extra
  | .typeMismatch => r.typeMismatch

def counts (r : Report) : Counts where
  compliant := r.compliant.length
  missing := r.missing.length
  extra := r.extra.length
  typeMismatch := r.typeMismatch.length

/-- Nothing is missing, extra or of the wrong kind. -/
def isCompliant (r : Report) : Bool := r.counts.issues = 0

theorem pathsWith_ofResults (r : Results) (s : Status) :
    (ofResults r).pathsWith s = r.pathsWith s := by
  cases s <;> rfl

theorem counts_get (r : Report) (s : Status) : r.counts.get s = (r.pathsWith s).length := by
  cases s <;> rfl

end Report

end LayoutCheck
