import LayoutCheck.Proofs.RemediationText

/-!
The plain text of a report can be read back.

The summary says how many paths have each status, and it ends with the first empty line. So a reader
knows how long each listing is before it begins, and takes its lines as they are, whatever they look
like (`takeListing_listingLines`). What is read is what the report lists (`ofText_render`), and
reports of the same text are told apart by their compliant paths only (`lists_eq_of_render_eq`).
-/

namespace LayoutCheck

theorem lines_append (ls : List String) (last : String) :
    lines ls ++ last = "\n".intercalate (ls ++ [last]) := by
  induction ls with
  | nil => simp [lines]
  | cons l ls ih =>
    have hne : ls ++ [last] ≠ [] := by simp
    obtain ⟨m, ms, hrest⟩ := List.exists_cons_of_ne_nil hne
    rw [List.cons_append, hrest, String.intercalate_cons_cons, ← hrest, ← ih]
    simp [lines, String.append_assoc]

theorem isPrinted_statusText (s : Status) : isPrinted s.text := by
  cases s <;> decide

namespace Report

theorem isPrinted_complianceText (c : Counts) : isPrinted (complianceText c) := by
  unfold complianceText
  split
  · simp only [tenthsText, isPrinted_append, isPrinted_repr]
    decide
  · decide

def Avoids (r : Report) (c : Char) : Prop := ∀ s, ∀ p ∈ r.pathsWith s, c ∉ p.toList

/-! ## Reading -/

/-- What a text tells of a report: how many paths are compliant, and which have another status. -/
structure Reading where
  compliant : Nat
  missing : List String
  extra : List String
  typeMismatch : List String
  deriving DecidableEq, Repr

def reading (r : Report) : Reading := ⟨r.compliant.length, r.missing, r.extra, r.typeMismatch⟩

/-- The number in a line of the summary, if it is about the status. -/
def count? (s : Status) (line : List Char) : Option Nat :=
  (line.dropPrefix? ("  " ++ s.text ++ ": ").toList).map (Nat.ofDigitChars 10 · 0)

def countIn (summary : List (List Char)) (s : Status) : Nat :=
  (summary.findSome? (count? s)).getD 0

/-- A listing of so many paths, without its title and the line behind it, and what follows. -/
def takeListing (n : Nat) (ls : List (List Char)) : List String × List (List Char) :=
  if n = 0 then ([], ls)
  else (((ls.drop 1).take n).map (fun l => String.ofList (l.drop 2)), ls.drop (n + 2))

def Reading.ofLines (ls : List (List Char)) : Reading :=
  let summary := ls.takeWhile (· ≠ [])
  let missing := takeListing (countIn summary .missing) (ls.drop (summary.length + 1))
  let extra := takeListing (countIn summary .extra) missing.2
  let typeMismatch := takeListing (countIn summary .typeMismatch) extra.2
  ⟨countIn summary .compliant, missing.1, extra.1, typeMismatch.1⟩

def Reading.ofText (text : String) : Reading := ofLines ((linesOf text).drop 4)

/-! ## The lines of a report -/

variable {r : Report}

theorem listingLines_eq (r : Report) (style : Style) (s : Status) :
    r.listingLines style s = if r.pathsWith s = [] then []
      else (style.status s s.text ++ ":") :: ((r.pathsWith s).map ("  " ++ ·) ++ [""]) := by
  unfold listingLines
  cases r.pathsWith s <;> rfl

def titleLines : List String := [rule, "Architecture Compliance Report", rule, "Summary:"]

def bodyLines (r : Report) : List String :=
  r.summaryLines .plain ++ "" :: (Status.issues.flatMap (r.listingLines .plain) ++
    ["Overall Compliance:" ++ " " ++ complianceText r.counts])

theorem isPrinted_of_mem_summaryLines {l : String} (h : l ∈ r.summaryLines .plain) :
    isPrinted l := by
  obtain ⟨s, _, rfl⟩ := List.mem_map.mp h
  have hstatus : isPrinted (Style.plain.status s s.text) := isPrinted_statusText s
  simp only [isPrinted_append, hstatus, isPrinted_repr]
  decide

theorem newline_notMem_listingLines (h : r.Avoids '\n') {s : Status} {l : String}
    (hl : l ∈ r.listingLines .plain s) : '\n' ∉ l.toList := by
  rw [listingLines_eq] at hl
  split at hl
  · cases hl
  · rcases List.mem_cons.mp hl with rfl | hl
    · have hstatus : isPrinted (Style.plain.status s s.text) := isPrinted_statusText s
      refine notMem_of_isPrinted ?_ (by decide)
      simp only [isPrinted_append, hstatus]
      decide
    · rcases List.mem_append.mp hl with hl | hl
      · obtain ⟨p, hp, rfl⟩ := List.mem_map.mp hl
        simpa using h s p hp
      · obtain rfl := List.mem_singleton.mp hl
        decide

theorem newline_notMem_bodyLines (h : r.Avoids '\n') : ∀ l ∈ r.bodyLines, '\n' ∉ l.toList := by
  intro l hl
  rcases List.mem_append.mp hl with hl | hl
  · exact notMem_of_isPrinted (isPrinted_of_mem_summaryLines hl) (by decide)
  rcases List.mem_cons.mp hl with rfl | hl
  · decide
  rcases List.mem_append.mp hl with hl | hl
  · obtain ⟨s, _, hl⟩ := List.mem_flatMap.mp hl
    exact newline_notMem_listingLines h hl
  · obtain rfl := List.mem_singleton.mp hl
    refine notMem_of_isPrinted ?_ (by decide)
    simp only [isPrinted_append, isPrinted_complianceText]
    decide

theorem render_plain (r : Report) :
    r.render .plain = "\n".intercalate (titleLines ++ r.bodyLines) := by
  have hlast : titleLines ++ r.bodyLines =
      titleLines ++ r.summaryLines .plain ++ [""] ++
        Status.issues.flatMap (r.listingLines .plain) ++
        ["Overall Compliance:" ++ " " ++ complianceText r.counts] := by
    simp [bodyLines]
  rw [hlast, ← lines_append, ← String.append_assoc, ← String.append_assoc]
  rfl

theorem linesOf_render (h : r.Avoids '\n') :
    linesOf (r.render .plain) = (titleLines ++ r.bodyLines).map String.toList := by
  rw [render_plain]
  refine linesOf_intercalate (by simp [titleLines]) ?_
  intro l hl
  rcases List.mem_append.mp hl with hl | hl
  · have htitle : ∀ l ∈ titleLines, isPrinted l := by decide
    exact notMem_of_isPrinted (htitle l hl) (by decide)
  · exact newline_notMem_bodyLines h l hl

/-! ## What is read back -/

/-- A line of the summary is about its own status only. -/
theorem count?_summaryLine (s t : Status) (n : Nat) :
    count? s ("  " ++ t.text ++ ": " ++ Nat.repr n).toList = if s = t then some n else none := by
  split
  · rename_i heq
    obtain rfl := heq
    rw [count?, String.toList_append, List.dropPrefix?_append_of_beq _ (beq_self_eq_true _),
      Option.map_some, Nat.repr, String.toList_ofList, Nat.ofDigitChars_ten_toDigits]
  · rename_i hne
    cases s <;> cases t <;> first
      | exact absurd rfl hne
      | simp [count?, Status.text, List.dropPrefix?]

theorem findSome?_of_eq {α : Type} [DecidableEq α] (f : α → Nat) (a : α) (as : List α) :
    as.findSome? (fun b => if a = b then some (f b) else none) =
      if a ∈ as then some (f a) else none := by
  induction as with
  | nil => rfl
  | cons b bs ih =>
    by_cases h : a = b
    · simp [h]
    · simp [h, ih]

/-- A status without a line has no paths. -/
theorem countIn_summaryLines (r : Report) (s : Status) :
    countIn ((r.summaryLines .plain).map String.toList) s = (r.pathsWith s).length := by
  have hline : ((count? s ∘ String.toList) ∘ fun t =>
      "  " ++ Style.plain.status t t.text ++ ": " ++ Nat.repr (r.counts.get t)) =
        fun t => if s = t then some (r.counts.get t) else none :=
    funext fun t => count?_summaryLine s t (r.counts.get t)
  rw [countIn, summaryLines, List.findSome?_map, List.findSome?_map, hline, findSome?_of_eq,
    ← counts_get]
  split
  · rfl
  · rename_i hnone
    simp only [List.mem_filter, Status.mem_all, true_and, decide_eq_true_eq] at hnone
    simp only [Option.getD_none]
    omega

theorem drop_past {α : Type} (as : List α) (a : α) (rest : List α) :
    (as ++ a :: rest).drop (as.length + 1) = rest := by
  rw [List.drop_length_add_append]
  rfl

/-- A listing is taken whole, whatever its paths look like. -/
theorem takeListing_listingLines (r : Report) (s : Status) (rest : List (List Char)) :
    takeListing (r.pathsWith s).length ((r.listingLines .plain s).map String.toList ++ rest) =
      (r.pathsWith s, rest) := by
  rw [listingLines_eq]
  generalize r.pathsWith s = paths
  by_cases hnone : paths = []
  · simp [takeListing, hnone]
  · have hlength : ((paths.map (fun p => "  " ++ p)).map String.toList).length = paths.length := by
      simp
    have hdrop := drop_past ((paths.map (fun p => "  " ++ p)).map String.toList) [] rest
    rw [hlength] at hdrop
    rw [takeListing, if_neg (by simpa using hnone), if_neg hnone]
    simpa [Function.comp_def] using hdrop

/-- The lines of the summary end with the first empty one. -/
theorem takeWhile_summaryLines (r : Report) (rest : List (List Char)) :
    ((r.summaryLines .plain).map String.toList ++ [] :: rest).takeWhile (· ≠ []) =
      (r.summaryLines .plain).map String.toList := by
  rw [List.takeWhile_append_of_pos, List.takeWhile_cons_of_neg (by simp), List.append_nil]
  intro line hline
  obtain ⟨l, hl, rfl⟩ := List.mem_map.mp hline
  obtain ⟨s, _, rfl⟩ := List.mem_map.mp hl
  simp

theorem ofLines_bodyLines (r : Report) :
    Reading.ofLines (r.bodyLines.map String.toList) = r.reading := by
  let listing (s : Status) := (r.listingLines .plain s).map String.toList
  let last := ("Overall Compliance:" ++ " " ++ complianceText r.counts).toList
  have hlines : r.bodyLines.map String.toList = (r.summaryLines .plain).map String.toList ++ [] ::
      (listing .missing ++ (listing .extra ++ (listing .typeMismatch ++ [last]))) := by
    simp [bodyLines, Status.issues, listing, last]
  unfold Reading.ofLines
  simp only [hlines, takeWhile_summaryLines, drop_past, countIn_summaryLines, listing,
    takeListing_listingLines]
  rfl

/-- What is read in the plain text of a report is what the report lists. -/
theorem ofText_render (h : r.Avoids '\n') : Reading.ofText (r.render .plain) = r.reading := by
  rw [Reading.ofText, linesOf_render h, ← List.map_drop]
  exact ofLines_bodyLines r

/--
Reports of the same plain text have the same numbers and list the same issues, when no path has a
line feed: the text tells how many paths are compliant, and which ones are not.
-/
theorem lists_eq_of_render_eq {r s : Report} (hr : r.Avoids '\n') (hs : s.Avoids '\n')
    (h : r.render .plain = s.render .plain) :
    (∀ status, r.counts.get status = s.counts.get status) ∧
      r.missing = s.missing ∧ r.extra = s.extra ∧ r.typeMismatch = s.typeMismatch := by
  have hreading : r.reading = s.reading := by rw [← ofText_render hr, h, ofText_render hs]
  obtain ⟨hcompliant, hmissing, hextra, hmismatch⟩ := Reading.mk.inj hreading
  refine ⟨fun status => ?_, hmissing, hextra, hmismatch⟩
  cases status with
  | compliant => exact hcompliant
  | missing => exact congrArg List.length hmissing
  | extra => exact congrArg List.length hextra
  | typeMismatch => exact congrArg List.length hmismatch

/-- Paths may look like the lines around them, and which paths are compliant is not told. -/
theorem lists_eq_of_render_eq_lookalike :
    let r : Report := ⟨["a"], ["", "[EXTRA] Extra:"], [], ["  Overall Compliance: 100.0% (1/1)"]⟩
    let s : Report := ⟨["b"], ["", "[EXTRA] Extra:"], [], ["  Overall Compliance: 100.0% (1/1)"]⟩
    r.Avoids '\n' ∧ s.Avoids '\n' ∧ r ≠ s ∧ r.render .plain = s.render .plain ∧
      r.missing = s.missing ∧ r.typeMismatch = s.typeMismatch := by
  intro r s
  have hr : r.Avoids '\n' := by
    intro status
    cases status <;> decide
  have hs : s.Avoids '\n' := by
    intro status
    cases status <;> decide
  have htext : r.render .plain = s.render .plain := rfl
  obtain ⟨_, hmissing, _, hmismatch⟩ := lists_eq_of_render_eq hr hs htext
  exact ⟨hr, hs, by decide, htext, hmissing, hmismatch⟩

end Report

end LayoutCheck
