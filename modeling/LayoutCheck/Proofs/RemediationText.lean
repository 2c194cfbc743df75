import LayoutCheck.Proofs.Selection
import LayoutCheck.Report.Text

/-!
What the text of a remediation accounts for.

A text is read line by line: its item lines are counted, and its last line may say how many paths
were left out. Of a remediation with items this gives back both numbers (`itemCount_render`,
`leftOutCount_render`), which together are all of the missing paths (`render_ofMissing_accounts`).
Without items there is no text, so a limit of zero hides that anything is missing
(`render_ofMissing_limit_zero`).
-/

namespace LayoutCheck

/-! ## Lines -/

def linesOf (text : String) : List (List Char) := text.toList.splitOn '\n'

/-- Lines with line feeds between them are read back. -/
theorem linesOf_intercalate {ls : List String} (hne : ls ≠ []) (h : ∀ l ∈ ls, '\n' ∉ l.toList) :
    linesOf ("\n".intercalate ls) = ls.map String.toList := by
  have hlines : ∀ l ∈ ls.map String.toList, '\n' ∉ l := by
    intro l hl
    obtain ⟨line, hline, rfl⟩ := List.mem_map.mp hl
    exact h line hline
  rw [linesOf, String.toList_intercalate, show "\n".toList = ['\n'] from rfl,
    List.splitOn_intercalate _ hlines (by simpa using hne)]

/-- None of the characters comes before the space, as line feeds and the like do. -/
def isPrinted (text : String) : Bool := text.toList.all (32 ≤ ·.toNat)

theorem notMem_of_isPrinted {text : String} (h : isPrinted text) {c : Char} (hc : c.toNat < 32) :
    c ∉ text.toList := by
  intro hmem
  have hle : 32 ≤ c.toNat := by simpa using List.all_eq_true.mp h c hmem
  omega

theorem isPrinted_append (s t : String) : isPrinted (s ++ t) = (isPrinted s && isPrinted t) := by
  simp [isPrinted]

theorem isPrinted_repr (n : Nat) : isPrinted (Nat.repr n) := by
  rw [isPrinted, Nat.repr, String.toList_ofList, List.all_eq_true]
  intro c hc
  have hdigit : c.isDigit := Nat.isDigit_of_mem_toDigits (by decide) (by decide) hc
  have hle : '0'.toNat ≤ c.toNat := (Char.isDigit_iff_toNat.mp hdigit).1
  exact decide_eq_true (Nat.le_trans (by decide) hle)

namespace Remediation

/-! ## Reading -/

def isItemLine (line : List Char) : Bool := "  - ".toList.isPrefixOf line

/-- The number in a line that says how many paths were left out. -/
def leftOut? (line : List Char) : Option Nat := do
  let rest ← line.dropPrefix? "  ... and ".toList
  let digits ← rest.dropSuffix? " more.".toList
  if digits ≠ [] ∧ digits.all Char.isDigit then some (Nat.ofDigitChars 10 digits 0) else none

def itemCount (text : String) : Nat := (linesOf text).countP isItemLine

def leftOutCount (text : String) : Nat := ((linesOf text).getLast?.bind leftOut?).getD 0

/-! ## What is written -/

variable {r : Remediation} {paths : List String} {limit : Nat}

def leftOutLines (r : Remediation) : List String :=
  if 0 < r.omitted then ["  ... and " ++ Nat.repr r.omitted ++ " more."] else []

def textLines (r : Remediation) : List String :=
  "Implementation priorities:" :: (r.items.map ("  - " ++ ·) ++ r.leftOutLines)

theorem intercalate_cons (l : String) (ls : List String) :
    "\n".intercalate (l :: ls) = l ++ String.join (ls.map ("\n" ++ ·)) := by
  induction ls generalizing l with
  | nil => simp
  | cons m ms ih =>
    rw [String.intercalate_cons_cons, ih]
    simp [String.append_assoc]

theorem render_of_items (h : r.items ≠ []) : r.render .plain = "\n".intercalate r.textLines := by
  have hitem : (fun item => "\n  - " ++ item) = fun item : String => "\n" ++ ("  - " ++ item) := by
    funext item
    rw [← String.append_assoc]
    rfl
  have hlast : (if 0 < r.omitted then "\n  ... and " ++ Nat.repr r.omitted ++ " more." else "") =
      String.join (r.leftOutLines.map ("\n" ++ ·)) := by
    unfold leftOutLines
    split
    · simp only [List.map_singleton, String.join_cons, String.join_nil, ← String.append_assoc]
      simp
    · rfl
  rw [render, if_neg (by simpa [isEmpty] using h), textLines, intercalate_cons, List.map_append,
    List.map_map, String.join_append, hitem, hlast, ← String.append_assoc]
  rfl

theorem newline_notMem_textLines (h : ∀ p ∈ r.items, '\n' ∉ p.toList) :
    ∀ l ∈ r.textLines, '\n' ∉ l.toList := by
  intro l hl
  rcases List.mem_cons.mp hl with rfl | hl
  · decide
  rcases List.mem_append.mp hl with hl | hl
  · obtain ⟨p, hp, rfl⟩ := List.mem_map.mp hl
    simpa using h p hp
  · have hrepr := notMem_of_isPrinted (isPrinted_repr r.omitted) (show '\n'.toNat < 32 by decide)
    unfold leftOutLines at hl
    split at hl
    · obtain rfl := List.mem_singleton.mp hl
      simpa using hrepr
    · simp at hl

/-! ## What is read back -/

theorem isItemLine_leftOutLine (n : Nat) :
    isItemLine ("  ... and " ++ Nat.repr n ++ " more.").toList = false := by
  simp [isItemLine, List.isPrefixOf]

theorem leftOut?_leftOutLine (n : Nat) :
    leftOut? ("  ... and " ++ Nat.repr n ++ " more.").toList = some n := by
  have htext : ("  ... and " ++ Nat.repr n ++ " more.").toList =
      "  ... and ".toList ++ (Nat.toDigits 10 n ++ " more.".toList) := by
    simp [Nat.repr]
  have hrest := List.dropPrefix?_append_of_beq (Nat.toDigits 10 n ++ " more.".toList)
    (beq_self_eq_true "  ... and ".toList)
  have hdigits : (Nat.toDigits 10 n ++ " more.".toList).dropSuffix? " more.".toList =
      some (Nat.toDigits 10 n) :=
    List.dropSuffix?_eq_some_iff.mpr ⟨_, rfl, beq_self_eq_true _⟩
  have hall : (Nat.toDigits 10 n).all Char.isDigit := by
    rw [List.all_eq_true]
    exact fun c hc => Nat.isDigit_of_mem_toDigits (by decide) (by decide) hc
  simp only [leftOut?, htext, hrest, Option.bind_eq_bind, Option.bind_some, hdigits]
  rw [if_pos ⟨Nat.toDigits_ne_nil, hall⟩, Nat.ofDigitChars_ten_toDigits]

theorem linesOf_render (hne : r.items ≠ []) (h : ∀ p ∈ r.items, '\n' ∉ p.toList) :
    linesOf (r.render .plain) = r.textLines.map String.toList := by
  rw [render_of_items hne]
  exact linesOf_intercalate (List.cons_ne_nil _ _) (newline_notMem_textLines h)

/-- The item lines of the text are as many as the items. -/
theorem itemCount_render (hne : r.items ≠ []) (h : ∀ p ∈ r.items, '\n' ∉ p.toList) :
    itemCount (r.render .plain) = r.items.length := by
  have hitems : (r.items.map ("  - " ++ ·)).countP (fun l => isItemLine l.toList) =
      r.items.length := by
    rw [List.countP_map, List.countP_eq_length]
    simp [isItemLine]
  have hlast : r.leftOutLines.countP (fun l => isItemLine l.toList) = 0 := by
    rw [List.countP_eq_zero, leftOutLines]
    split
    · simpa using isItemLine_leftOutLine r.omitted
    · simp
  rw [itemCount, linesOf_render hne h, List.countP_map, textLines,
    List.countP_cons_of_neg (by decide), List.countP_append]
  exact congrArg₂ (· + ·) hitems hlast

/-- The last line of the text says how many paths were left out, unless none was. -/
theorem leftOutCount_render (hne : r.items ≠ []) (h : ∀ p ∈ r.items, '\n' ∉ p.toList) :
    leftOutCount (r.render .plain) = r.omitted := by
  have hlast : r.textLines.getLast? = r.leftOutLines.getLast?.or
      (some ("  - " ++ r.items.getLast hne)) := by
    rw [textLines, List.getLast?_cons, List.getLast?_append, List.getLast?_map,
      List.getLast?_eq_some_getLast hne]
    cases r.leftOutLines.getLast? <;> rfl
  rw [leftOutCount, linesOf_render hne h, List.getLast?_map, hlast, leftOutLines]
  split
  · rw [List.getLast?_singleton, Option.some_or, Option.map_some, Option.bind_some,
      leftOut?_leftOutLine, Option.getD_some]
  · have hnone : r.omitted = 0 := by omega
    simp [hnone, leftOut?, List.dropPrefix?]

theorem render_eq_empty_iff : r.render .plain = "" ↔ r.items = [] := by
  constructor
  · intro htext
    by_contra hne
    rw [render_of_items hne, textLines, intercalate_cons, String.append_eq_empty_iff] at htext
    exact absurd htext.1 (by decide)
  · intro hitems
    simp [render, isEmpty, hitems]

theorem items_length_add_omitted (paths : List String) (limit : Nat) :
    (ofMissing paths limit).items.length + (ofMissing paths limit).omitted =
      paths.toFinset.card := by
  have hlength := (choice_ofDistinct (nodup_distinct paths) limit).2
  have hle := Nat.min_le_right limit (distinct paths).length
  rw [← length_distinct, ofMissing]
  show _ + ((distinct paths).length - (ofDistinct (distinct paths) limit).items.length) = _
  omega

theorem items_ofMissing_eq_nil_iff :
    (ofMissing paths limit).items = [] ↔ limit = 0 ∨ paths.toFinset.card = 0 := by
  have hlength := (choice_ofDistinct (nodup_distinct paths) limit).2
  rw [length_distinct] at hlength
  rw [← List.length_eq_zero_iff, ofMissing, hlength]
  omega

/--
The text of what is chosen accounts for all of the missing paths, each counted once: its item lines
and the number in its last line add up to them. There is no text if nothing is missing or if the
limit is zero.
-/
theorem render_ofMissing_accounts (limit : Nat) (h : ∀ p ∈ paths, '\n' ∉ p.toList) :
    let text := (ofMissing paths limit).render .plain
    let count := paths.toFinset.card
    (text = "" ↔ limit = 0 ∨ count = 0) ∧
      (text ≠ "" → itemCount text + leftOutCount text = count) := by
  intro text count
  have hchoice := (choice_ofDistinct (nodup_distinct paths) limit).1
  have hitems : ∀ p ∈ (ofMissing paths limit).items, '\n' ∉ p.toList := fun p hp =>
    h p (mem_distinct.mp (hchoice.subset hp))
  refine ⟨render_eq_empty_iff.trans items_ofMissing_eq_nil_iff, fun htext => ?_⟩
  have hne : (ofMissing paths limit).items ≠ [] := mt render_eq_empty_iff.mpr htext
  rw [itemCount_render hne hitems, leftOutCount_render hne hitems, items_length_add_omitted]

/-- Paths may look like the lines of the text, and the limit may cut them off. -/
theorem render_ofMissing_accounts_lookalike :
    let paths := ["  ... and 7 more.", "  - a", "a", "  - a"]
    let text := (ofMissing paths 2).render .plain
    (∀ p ∈ paths, '\n' ∉ p.toList) ∧
      text = "Implementation priorities:\n  -   - a\n  -   ... and 7 more.\n  ... and 1 more." ∧
      itemCount text + leftOutCount text = 3 := by
  intro paths text
  have h : ∀ p ∈ paths, '\n' ∉ p.toList := by decide
  have htext : (ofMissing paths 2).render .plain =
      "Implementation priorities:\n  -   - a\n  -   ... and 7 more.\n  ... and 1 more." := by
    decide +kernel
  obtain ⟨_, haccounts⟩ := render_ofMissing_accounts 2 h
  refine ⟨h, htext, haccounts ?_⟩
  rw [htext]
  decide

/-- A limit of zero leaves no text, although a path is missing. -/
theorem render_ofMissing_limit_zero :
    let paths := ["src/a.rs"]
    let text := (ofMissing paths 0).render .plain
    (∀ p ∈ paths, '\n' ∉ p.toList) ∧ paths.toFinset.card = 1 ∧
      itemCount text + leftOutCount text = 0 ∧ ¬ (text = "" ↔ paths.toFinset.card = 0) := by
  intro paths text
  have htext : text = "" := rfl
  have hcount : paths.toFinset.card = 1 := rfl
  refine ⟨by decide, hcount, by rw [htext]; rfl, fun h => ?_⟩
  have hnone := h.mp htext
  omega

end Remediation

end LayoutCheck
