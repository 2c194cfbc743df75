import LayoutCheck.Proofs.ReadBack
import LayoutCheck.Proofs.WellFormed
import LayoutCheck.Tree.Outline

/-!
The outline of a tree tells everything about it.

A line can be taken apart: the blanks before the name say how deep the entry is, and the name ends
at a slash or a blank, or with the line (`line_inj`). The entries below a directory are those whose
lines follow until one is not deeper (`outlineLines_append_inj`). So trees of the same outline are
the same (`outline_faithful`).
-/

namespace LayoutCheck

/-- Where the characters of a first part end by themselves, two texts are equal part by part. -/
theorem append_inj_of_all {p : Char → Bool} {as bs xs ys : List Char} (has : ∀ a ∈ as, p a)
    (hbs : ∀ b ∈ bs, p b) (hxs : ∀ x ∈ xs.head?, ¬ p x) (hys : ∀ y ∈ ys.head?, ¬ p y)
    (h : as ++ xs = bs ++ ys) : as = bs ∧ xs = ys := by
  have hends : ∀ zs : List Char, (∀ z ∈ zs.head?, ¬ p z) → zs.takeWhile p = [] := by
    intro zs hzs
    cases zs with
    | nil => rfl
    | cons z zs => exact List.takeWhile_cons_of_neg (hzs z rfl)
  have htake := congrArg (List.takeWhile p) h
  rw [List.takeWhile_append_of_pos has, List.takeWhile_append_of_pos hbs, hends xs hxs,
    hends ys hys, List.append_nil, List.append_nil] at htake
  subst htake
  exact ⟨rfl, List.append_cancel_left h⟩

namespace Tree

variable {s t u : Tree} {cs ds : List Tree} {depth d : Nat} {l : String} {rest rest' : List String}

/-- The name can be told from what stands around it, and the entry takes one line. -/
structure Legible (t : Tree) : Prop where
  name_ne : t.name ≠ ""
  no_blank : ' ' ∉ t.name.toList
  no_slash : '/' ∉ t.name.toList
  name_line : '\n' ∉ t.name.toList
  description_line : ∀ text ∈ t.description, '\n' ∉ text.toList

/-! ## One line -/

def mark (t : Tree) : String := if t.isDirectory then "/" else ""

def line (depth : Nat) (t : Tree) : String :=
  indentation depth ++ t.name ++ t.mark ++ descriptionSuffix t.description

theorem outlineLines_eq (depth : Nat) (t : Tree) :
    t.outlineLines depth = t.line depth :: outlineAll (depth + 1) t.children := by
  cases t <;> simp [outlineLines, outlineAll, line, mark, isDirectory, description]

theorem toList_line (depth : Nat) (t : Tree) : (t.line depth).toList =
    List.replicate (2 * depth) ' ' ++
      (t.name.toList ++ (t.mark.toList ++ (descriptionSuffix t.description).toList)) := by
  simp [line, indentation]

theorem eq_slash_of_mem_mark (t : Tree) : ∀ c ∈ t.mark.toList, decide (c = '/') := by
  unfold mark
  split <;> simp

/-- A description comes behind a blank. -/
theorem ne_slash_of_head?_descriptionSuffix (text : Option String) :
    ∀ c ∈ (descriptionSuffix text).toList.head?, ¬ decide (c = '/') := by
  cases text <;> simp [descriptionSuffix]

def isNameChar (c : Char) : Bool := c ≠ ' ' && c ≠ '/'

theorem Legible.isNameChar_of_mem (h : t.Legible) : ∀ c ∈ t.name.toList, isNameChar c := by
  intro c hc
  have hblank : c ≠ ' ' := fun he => h.no_blank (he ▸ hc)
  have hslash : c ≠ '/' := fun he => h.no_slash (he ▸ hc)
  simp [isNameChar, hblank, hslash]

/-- A name ends at a slash or a blank, or with the line. -/
theorem not_isNameChar_of_head?_behind (t : Tree) :
    ∀ c ∈ (t.mark.toList ++ (descriptionSuffix t.description).toList).head?, ¬ isNameChar c := by
  unfold mark
  split
  · simp [isNameChar]
  · cases t.description <;> simp [descriptionSuffix, isNameChar]

/-- The blanks before a name end where it begins. -/
theorem Legible.ne_blank_of_head? (h : t.Legible) (behind : List Char) :
    ∀ c ∈ (t.name.toList ++ behind).head?, ¬ decide (c = ' ') := by
  have hne : t.name.toList ≠ [] := by simpa using h.name_ne
  obtain ⟨first, more, hname⟩ := List.exists_cons_of_ne_nil hne
  have hfirst : first ≠ ' ' := by
    rintro rfl
    exact h.no_blank (hname ▸ List.mem_cons_self ..)
  simpa [hname] using hfirst

theorem newline_notMem_line (h : t.Legible) (depth : Nat) : '\n' ∉ (t.line depth).toList := by
  have hmark : '\n' ∉ t.mark.toList := fun hmem =>
    absurd (eq_slash_of_mem_mark t _ hmem) (by decide)
  have hdescription : '\n' ∉ (descriptionSuffix t.description).toList := by
    cases htext : t.description with
    | none => simp [descriptionSuffix]
    | some text => simpa [descriptionSuffix] using h.description_line text htext
  rw [toList_line]
  simp [h.name_line, hmark, hdescription]

theorem kind_eq_of_mark_eq (h : s.mark = t.mark) : s.kind = t.kind := by
  cases s <;> cases t <;> simp_all [mark, isDirectory]

theorem descriptionSuffix_inj {a b : Option String}
    (h : descriptionSuffix a = descriptionSuffix b) : a = b := by
  cases a <;> cases b <;> simp_all [descriptionSuffix, String.append_right_inj]

/-- A line tells how deep the entry is, its name, its kind and its description. -/
theorem line_inj (hs : s.Legible) (ht : t.Legible) (h : s.line depth = t.line d) :
    depth = d ∧ s.name = t.name ∧ s.kind = t.kind ∧ s.description = t.description := by
  have hchars := congrArg String.toList h
  rw [toList_line, toList_line] at hchars
  obtain ⟨hblanks, hchars⟩ := append_inj_of_all (p := (· = ' ')) (by simp) (by simp)
    (hs.ne_blank_of_head? _) (ht.ne_blank_of_head? _) hchars
  obtain ⟨hname, hchars⟩ := append_inj_of_all hs.isNameChar_of_mem ht.isNameChar_of_mem
    s.not_isNameChar_of_head?_behind t.not_isNameChar_of_head?_behind hchars
  obtain ⟨hmark, hdescription⟩ := append_inj_of_all s.eq_slash_of_mem_mark t.eq_slash_of_mem_mark
    (ne_slash_of_head?_descriptionSuffix _) (ne_slash_of_head?_descriptionSuffix _) hchars
  refine ⟨?_, String.toList_inj.mp hname, ?_, ?_⟩
  · have hlength := congrArg List.length hblanks
    simp only [List.length_replicate] at hlength
    omega
  · exact kind_eq_of_mark_eq (String.toList_inj.mp hmark)
  · exact descriptionSuffix_inj (String.toList_inj.mp hdescription)

/-! ## All lines -/

/-- The next line, if there is one, is that of an entry that stands above that depth. -/
def ReturnsAbove (depth : Nat) (ls : List String) : Prop :=
  ∀ l ∈ ls.head?, ∃ (t : Tree) (d : Nat), t.Legible ∧ d < depth ∧ l = t.line d

theorem returnsAbove_nil (depth : Nat) : ReturnsAbove depth [] := by
  simp [ReturnsAbove]

/-- Behind the lines of an entry its next sibling follows, or the lines of its directory end. -/
theorem ReturnsAbove.outlineAll (h : ReturnsAbove depth rest) (hcs : ∀ c ∈ cs, c.All Legible) :
    ReturnsAbove (depth + 1) (outlineAll depth cs ++ rest) := by
  intro l hl
  cases cs with
  | nil =>
    obtain ⟨t, d, ht, hd, hline⟩ := h l hl
    exact ⟨t, d, ht, Nat.lt_succ_of_lt hd, hline⟩
  | cons c cs =>
    rw [Tree.outlineAll, outlineLines_eq] at hl
    obtain rfl : c.line depth = l := by simpa using hl
    exact ⟨c, depth, (hcs c (List.mem_cons_self ..)).here, Nat.lt_succ_self depth, rfl⟩

/-- The lines of an entry do not go on where the lines of its directory end. -/
theorem not_returnsAbove_line (ht : t.Legible) : ¬ ReturnsAbove depth (t.line depth :: rest) := by
  intro h
  obtain ⟨u, d, hu, hd, hline⟩ := h _ rfl
  exact Nat.ne_of_gt hd (line_inj ht hu hline).1

theorem outlineAll_append_inj
    (h : ∀ c ∈ cs, ∀ depth u rest rest', u.All Legible →
      ReturnsAbove (depth + 1) rest → ReturnsAbove (depth + 1) rest' →
      c.outlineLines depth ++ rest = u.outlineLines depth ++ rest' → c = u ∧ rest = rest')
    (hcs : ∀ c ∈ cs, c.All Legible) (hds : ∀ d ∈ ds, d.All Legible)
    (hrest : ReturnsAbove depth rest) (hrest' : ReturnsAbove depth rest')
    (heq : outlineAll depth cs ++ rest = outlineAll depth ds ++ rest') :
    cs = ds ∧ rest = rest' := by
  induction cs generalizing ds with
  | nil =>
    cases ds with
    | nil => exact ⟨rfl, heq⟩
    | cons d ds =>
      have hd : d.Legible := (hds d (List.mem_cons_self ..)).here
      rw [outlineAll, outlineAll, outlineLines_eq, List.nil_append] at heq
      exact absurd (heq ▸ hrest) (not_returnsAbove_line hd)
  | cons c cs ih =>
    obtain ⟨hc, hmoreCs⟩ := List.forall_mem_cons.mp hcs
    cases ds with
    | nil =>
      rw [outlineAll, outlineAll, outlineLines_eq, List.nil_append] at heq
      exact absurd (heq.symm ▸ hrest') (not_returnsAbove_line hc.here)
    | cons d ds =>
      obtain ⟨hd, hmoreDs⟩ := List.forall_mem_cons.mp hds
      obtain ⟨hfirst, hmore⟩ := List.forall_mem_cons.mp h
      rw [outlineAll, outlineAll, List.append_assoc, List.append_assoc] at heq
      obtain ⟨rfl, hbehind⟩ :=
        hfirst depth d _ _ hd (hrest.outlineAll hmoreCs) (hrest'.outlineAll hmoreDs) heq
      obtain ⟨rfl, hend⟩ := ih hmore hmoreCs hmoreDs hbehind
      exact ⟨rfl, hend⟩

/-- The lines of a tree end where the next line is not deeper than the first. -/
theorem outlineLines_append_inj (ht : t.All Legible) (hu : u.All Legible)
    (hrest : ReturnsAbove (depth + 1) rest) (hrest' : ReturnsAbove (depth + 1) rest')
    (h : t.outlineLines depth ++ rest = u.outlineLines depth ++ rest') : t = u ∧ rest = rest' := by
  induction t using Tree.induction generalizing depth u rest rest' with
  | file n text =>
    rw [outlineLines_eq, outlineLines_eq _ u, List.cons_append, List.cons_append] at h
    obtain ⟨hline, hbehind⟩ := List.cons.inj h
    obtain ⟨-, hname, hkind, htext⟩ := line_inj ht.here hu.here hline
    cases u with
    | file m text' =>
      obtain rfl : n = m := hname
      obtain rfl : text = text' := htext
      exact ⟨rfl, hbehind⟩
    | directory => simp at hkind
  | directory n text cs ih =>
    rw [outlineLines_eq, outlineLines_eq _ u, List.cons_append, List.cons_append] at h
    obtain ⟨hline, hbehind⟩ := List.cons.inj h
    obtain ⟨-, hname, hkind, htext⟩ := line_inj ht.here hu.here hline
    cases u with
    | file => simp at hkind
    | directory m text' ds =>
      obtain rfl : n = m := hname
      obtain rfl : text = text' := htext
      obtain ⟨rfl, hend⟩ := outlineAll_append_inj
        (fun c hc depth u rest rest' hu hr hr' => ih c hc (ht.of_mem_children hc) hu hr hr')
        (fun c => ht.of_mem_children) (fun d => hu.of_mem_children) hrest hrest' hbehind
      exact ⟨rfl, hend⟩

theorem newline_notMem_outlineAll
    (h : ∀ c ∈ cs, ∀ depth, ∀ l ∈ c.outlineLines depth, '\n' ∉ l.toList) (depth : Nat) :
    ∀ l ∈ outlineAll depth cs, '\n' ∉ l.toList := by
  induction cs with
  | nil => simp [outlineAll]
  | cons c cs ih =>
    obtain ⟨hc, hcs⟩ := List.forall_mem_cons.mp h
    rw [outlineAll, List.forall_mem_append]
    exact ⟨hc depth, ih hcs⟩

theorem newline_notMem_outlineLines (ht : t.All Legible) (depth : Nat) :
    ∀ l ∈ t.outlineLines depth, '\n' ∉ l.toList := by
  induction t using Tree.induction generalizing depth with
  | file n text =>
    rw [outlineLines_eq, List.forall_mem_cons]
    exact ⟨newline_notMem_line ht.here depth, by simp [outlineAll]⟩
  | directory n text cs ih =>
    rw [outlineLines_eq, List.forall_mem_cons]
    refine ⟨newline_notMem_line ht.here depth, newline_notMem_outlineAll ?_ _⟩
    exact fun c hc depth => ih c hc (ht.of_mem_children hc) depth

theorem length_outlineAll
    (h : ∀ c ∈ cs, ∀ depth, (c.outlineLines depth).length = 1 + c.descendantCount) (depth : Nat) :
    (outlineAll depth cs).length = countAll cs := by
  induction cs with
  | nil => rfl
  | cons c cs ih =>
    obtain ⟨hc, hcs⟩ := List.forall_mem_cons.mp h
    rw [outlineAll, List.length_append, hc, ih hcs, countAll]

/-- There is one line for each entry. -/
theorem length_outlineLines (t : Tree) (depth : Nat) :
    (t.outlineLines depth).length = 1 + t.descendantCount := by
  induction t using Tree.induction generalizing depth with
  | file n text => rfl
  | directory n text cs ih =>
    rw [outlineLines_eq, List.length_cons, children_directory,
      length_outlineAll (fun c hc depth => ih c hc depth), descendantCount, Nat.add_comm]

theorem linesOf_outline (ht : t.All Legible) :
    linesOf t.outline = (t.outlineLines 0).map String.toList ++ [[]] := by
  have hended : t.outline = lines (t.outlineLines 0) ++ "" := by
    rw [String.append_empty]
    rfl
  have hfree : ∀ l ∈ t.outlineLines 0 ++ [""], '\n' ∉ l.toList := by
    rw [List.forall_mem_append]
    exact ⟨newline_notMem_outlineLines ht 0, by simp⟩
  rw [hended, lines_append, linesOf_intercalate (by simp) hfree, List.map_append]
  rfl

theorem outlineLines_eq_of_outline_eq (ht : t.All Legible) (hu : u.All Legible)
    (h : t.outline = u.outline) : t.outlineLines 0 = u.outlineLines 0 := by
  have hlines := congrArg linesOf h
  rw [linesOf_outline ht, linesOf_outline hu] at hlines
  have hinj : Function.Injective (List.map String.toList) :=
    List.map_injective_iff.mpr fun _ _ => String.toList_injective
  exact hinj (List.append_cancel_right hlines)

/--
Trees with the same outline are the same tree, with their names, kinds and descriptions and the
order of their entries, if no name can be mistaken for something else and each entry takes one line.
Then an outline has a line for each entry and each line ends.
-/
theorem outline_faithful (ht : t.All Legible) (hu : u.All Legible) :
    (t.outline = u.outline → t = u) ∧
    ∃ ls, t.outline = lines ls ∧ (∀ l ∈ ls, '\n' ∉ l.toList) ∧
      ls.length = 1 + t.descendantCount := by
  constructor
  · intro h
    have hlines : t.outlineLines 0 ++ [] = u.outlineLines 0 ++ [] :=
      congrArg (· ++ []) (outlineLines_eq_of_outline_eq ht hu h)
    exact (outlineLines_append_inj ht hu (returnsAbove_nil _) (returnsAbove_nil _) hlines).1
  · exact ⟨t.outlineLines 0, rfl, newline_notMem_outlineLines ht 0, length_outlineLines t 0⟩

/-- A file in a described directory or beside it: only the blanks before its name differ. -/
theorem outline_faithful_lookalike :
    let inside := Tree.branch "src" [(Tree.branch "lib" [.leaf "a#"]).describe "b/  # c"]
    let beside := Tree.branch "src" [(Tree.branch "lib" []).describe "b/  # c", .leaf "a#"]
    inside.All Legible ∧ beside.All Legible ∧ inside.outline ≠ beside.outline ∧
      inside.outline = "src/\n  lib/  # b/  # c\n    a#\n" ∧
      ∃ ls, inside.outline = lines ls ∧ (∀ l ∈ ls, '\n' ∉ l.toList) ∧ ls.length = 3 := by
  intro inside beside
  have hfile : (Tree.leaf "a#").All Legible :=
    .file ⟨by decide, by decide, by decide, by decide, by decide⟩
  have hinside : inside.All Legible := by
    refine .directory ⟨by decide, by decide, by decide, by decide, by decide⟩ ?_
    refine List.forall_mem_singleton.mpr (.directory ?_ (List.forall_mem_singleton.mpr hfile))
    exact ⟨by decide, by decide, by decide, by decide, by decide⟩
  have hbeside : beside.All Legible := by
    refine .directory ⟨by decide, by decide, by decide, by decide, by decide⟩ ?_
    refine List.forall_mem_cons.mpr ⟨.directory ?_ nofun, List.forall_mem_singleton.mpr hfile⟩
    exact ⟨by decide, by decide, by decide, by decide, by decide⟩
  obtain ⟨hinj, hlines⟩ := outline_faithful hinside hbeside
  exact ⟨hinside, hbeside, fun h => absurd (hinj h) (by decide), by decide, hlines⟩

end Tree

end LayoutCheck
