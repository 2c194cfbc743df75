import LayoutCheck.Proofs.ReadBack
import LayoutCheck.Proofs.Run

/-!
Colours are all that the styles of a text differ in.

A text shows as another one if erasing its codes gives that one, whatever stands behind it, and the
other one has no codes (`Shows`). What is painted shows as what it is without paint, and so does
whatever is put together from such pieces: the report, the remediation, the verdict and the
document. Paths stand between painted pieces, so none of them may have an escape character
(`styles_differ_in_codes`).
-/

namespace LayoutCheck

/-! ## Erasing codes -/

def escapeChar : Char := '\x1b'

/-- What stands behind the code with which the characters begin: the escape character, a bracket,
digits and an `m`. -/
def afterCode? : List Char → Option (List Char)
  | c :: '[' :: d :: cs =>
    if c = escapeChar ∧ d.isDigit then
      match cs.dropWhile Char.isDigit with
      | 'm' :: rest => some rest
      | _ => none
    else none
  | _ => none

theorem length_of_afterCode? {cs rest : List Char} (h : afterCode? cs = some rest) :
    rest.length < cs.length := by
  unfold afterCode? at h
  split at h
  · rename_i c d cs
    split at h
    · split at h
      · rename_i behind hbehind
        obtain rfl := Option.some.inj h
        have hlength := (List.dropWhile_suffix Char.isDigit (l := cs)).length_le
        rw [hbehind] at hlength
        simp only [List.length_cons] at hlength ⊢
        omega
      · cases h
    · cases h
  · cases h

def eraseCodes : List Char → List Char
  | [] => []
  | c :: cs =>
    match _ : afterCode? (c :: cs) with
    | some rest => eraseCodes rest
    | none => c :: eraseCodes cs
termination_by cs => cs.length
decreasing_by
  · exact length_of_afterCode? ‹_›
  · exact Nat.lt_succ_self _

def withoutCodes (text : String) : String := String.ofList (eraseCodes text.toList)

theorem eraseCodes_of_afterCode? {cs rest : List Char} (h : afterCode? cs = some rest) :
    eraseCodes cs = eraseCodes rest := by
  cases cs with
  | nil => cases h
  | cons c cs =>
    rw [eraseCodes]
    split
    · rename_i rest' hrest
      obtain rfl : rest' = rest := Option.some.inj (hrest.symm.trans h)
      rfl
    · rename_i hnone
      cases hnone.symm.trans h

theorem eraseCodes_cons_of_ne {c : Char} (h : c ≠ escapeChar) (cs : List Char) :
    eraseCodes (c :: cs) = c :: eraseCodes cs := by
  have hnone : afterCode? (c :: cs) = none := by
    unfold afterCode?
    split
    · rename_i heq
      rw [if_neg fun hc => h ((List.cons.inj heq).1.trans hc.1)]
    · rfl
  rw [eraseCodes]
  split
  · rename_i hrest
    cases hnone.symm.trans hrest
  · rfl

/-- Where there is no escape character nothing is erased. -/
theorem eraseCodes_append {cs : List Char} (h : escapeChar ∉ cs) (rest : List Char) :
    eraseCodes (cs ++ rest) = cs ++ eraseCodes rest := by
  induction cs with
  | nil => rfl
  | cons c cs ih =>
    rw [List.mem_cons, not_or] at h
    rw [List.cons_append, eraseCodes_cons_of_ne (Ne.symm h.1), ih h.2, List.cons_append]

def IsCode (code : String) : Prop := code ≠ "" ∧ code.toList.all Char.isDigit

instance : DecidablePred IsCode := fun code =>
  inferInstanceAs (Decidable (code ≠ "" ∧ code.toList.all Char.isDigit))

/-- A code is erased. -/
theorem eraseCodes_escape {code : String} (h : IsCode code) (rest : List Char) :
    eraseCodes ((Style.escape code).toList ++ rest) = eraseCodes rest := by
  obtain ⟨d, ds, hcode⟩ := List.exists_cons_of_ne_nil (String.toList_eq_nil_iff.not.mpr h.1)
  obtain ⟨hd, hds⟩ := List.forall_mem_cons.mp (hcode ▸ List.all_eq_true.mp h.2)
  have htext : (Style.escape code).toList ++ rest =
      escapeChar :: '[' :: d :: (ds ++ 'm' :: rest) := by
    simp [Style.escape, hcode, escapeChar]
  have hbehind : (ds ++ 'm' :: rest).dropWhile Char.isDigit = 'm' :: rest := by
    rw [List.dropWhile_append_of_pos hds]
    rfl
  rw [htext]
  apply eraseCodes_of_afterCode?
  rw [afterCode?, if_pos ⟨rfl, hd⟩, hbehind]
  rfl

/-- Without digits it is no code. -/
example : withoutCodes "\x1b[m\x1b[31mred\x1b[0m" = "\x1b[mred" := by
  decide +kernel

/-! ## What a text shows -/

/-- The first text shows as the second once its codes are erased, whatever stands behind it, and
the second has no codes. -/
structure Shows (s p : String) : Prop where
  erased : ∀ rest, eraseCodes (s.toList ++ rest) = p.toList ++ eraseCodes rest
  plain : escapeChar ∉ p.toList

namespace Shows

variable {s p t q : String} {ss ps : List String}

theorem self (h : escapeChar ∉ p.toList) : Shows p p := ⟨eraseCodes_append h, h⟩

theorem printed (h : isPrinted p) : Shows p p := self (notMem_of_isPrinted h (by decide))

theorem append (h : Shows s p) (h' : Shows t q) : Shows (s ++ t) (p ++ q) where
  erased rest := by
    rw [String.toList_append, String.toList_append, List.append_assoc, h.erased, h'.erased,
      List.append_assoc]
  plain := by
    rw [String.toList_append, List.mem_append, not_or]
    exact ⟨h.plain, h'.plain⟩

theorem join (h : List.Forall₂ Shows ss ps) : Shows (String.join ss) (String.join ps) := by
  induction h with
  | nil => exact self (by decide)
  | cons hsp _ ih =>
    rw [String.join_cons, String.join_cons]
    exact hsp.append ih

theorem lines (h : List.Forall₂ Shows ss ps) : Shows (lines ss) (LayoutCheck.lines ps) := by
  refine join (List.forall₂_map_left_iff.mpr (List.forall₂_map_right_iff.mpr ?_))
  exact h.imp fun s p hsp => hsp.append (self (by decide))

/-- Painting a text changes nothing else. -/
theorem paint {code text : String} (hcode : IsCode code) (h : escapeChar ∉ text.toList)
    (style : Style) : Shows (style.paint code text) text := by
  cases style with
  | plain => exact self h
  | colored =>
    rw [Style.paint]
    split
    · rename_i hempty
      exact hempty ▸ self h
    · have hend : IsCode "0" := by decide
      refine ⟨fun rest => ?_, h⟩
      simp only [String.toList_append, List.append_assoc]
      rw [eraseCodes_escape hcode, eraseCodes_append h, eraseCodes_escape hend]

theorem heading {text : String} (h : isPrinted text) (style : Style) :
    Shows (style.heading text) text :=
  paint (by decide) (notMem_of_isPrinted h (by decide)) style

theorem status {text : String} (h : isPrinted text) (style : Style) (s : Status) :
    Shows (style.status s text) text := by
  refine paint ?_ (notMem_of_isPrinted h (by decide)) style
  cases s <;> decide

/-- The characters of the second text are those of the first without its codes. -/
theorem withoutCodes (h : Shows s p) : withoutCodes s = p := by
  have herased := h.erased []
  rw [List.append_nil, eraseCodes, List.append_nil] at herased
  rw [LayoutCheck.withoutCodes, herased, String.ofList_toList]

end Shows

/-! ## What is rendered -/

namespace Report

variable {r : Report}

theorem shows_summaryLines (r : Report) (style : Style) :
    List.Forall₂ Shows (r.summaryLines style) (r.summaryLines .plain) := by
  refine List.forall₂_map_left_iff.mpr (List.forall₂_map_right_iff.mpr ?_)
  refine List.forall₂_same.mpr fun s _ => ?_
  have hstatus := Shows.status (isPrinted_statusText s) style s
  have hcount := Shows.printed (isPrinted_repr (r.counts.get s))
  exact (((Shows.self (by decide)).append hstatus).append (.self (by decide))).append hcount

theorem shows_listingLines (h : r.Avoids escapeChar) (style : Style) (s : Status) :
    List.Forall₂ Shows (r.listingLines style s) (r.listingLines .plain s) := by
  rw [listingLines_eq, listingLines_eq]
  split
  · exact .nil
  · have hname : Shows (style.status s s.text ++ ":") (Style.plain.status s s.text ++ ":") :=
      (Shows.status (isPrinted_statusText s) style s).append (.self (by decide))
    have hlisted : List.Forall₂ Shows ((r.pathsWith s).map ("  " ++ ·))
        ((r.pathsWith s).map ("  " ++ ·)) := by
      refine List.forall₂_same.mpr fun l hl => ?_
      obtain ⟨p, hp, rfl⟩ := List.mem_map.mp hl
      exact (Shows.self (by decide)).append (.self (h s p hp))
    have hend : List.Forall₂ Shows [""] [""] := .cons (.self (by decide)) .nil
    exact .cons hname (List.rel_append hlisted hend)

theorem shows_render (h : r.Avoids escapeChar) (style : Style) :
    Shows (r.render style) (r.render .plain) := by
  have hrule : Shows rule rule := .self (by decide)
  have htitle : Shows (style.heading "Architecture Compliance Report")
      "Architecture Compliance Report" := .heading (by decide) style
  have hsummary : Shows "Summary:" "Summary:" := .self (by decide)
  have hempty : Shows "" "" := .self (by decide)
  have hlistings : List.Forall₂ Shows (Status.issues.flatMap (r.listingLines style))
      (Status.issues.flatMap (r.listingLines .plain)) :=
    List.rel_append (shows_listingLines h style _)
      (List.rel_append (shows_listingLines h style _)
        (List.rel_append (shows_listingLines h style _) .nil))
  have hoverall : Shows (style.heading "Overall Compliance:") "Overall Compliance:" :=
    .heading (by decide) style
  have htop := List.rel_append (.cons hrule (.cons htitle (.cons hrule (.cons hsummary .nil))))
    (shows_summaryLines r style)
  have hlines := Shows.lines (List.rel_append (List.rel_append htop (.cons hempty .nil)) hlistings)
  exact ((hlines.append hoverall).append (.self (by decide))).append
    (.printed (isPrinted_complianceText r.counts))

theorem shows_verdict (r : Report) (style : Style) :
    Shows (r.verdict style) (r.verdict .plain) := by
  unfold verdict
  split
  · exact Shows.status (by decide) style .compliant
  · refine Shows.status ?_ style .missing
    simp only [isPrinted_append, isPrinted_repr]
    decide

theorem unescaped_remediation (h : r.Avoids escapeChar) (limit : Nat) :
    ∀ p ∈ (r.remediation limit).items, escapeChar ∉ p.toList := by
  intro p hp
  have hchoice := (Remediation.choice_ofDistinct (Remediation.nodup_distinct r.missing) limit).1
  exact h .missing p (Remediation.mem_distinct.mp (hchoice.subset hp))

end Report

theorem Remediation.shows_render {r : Remediation} (h : ∀ p ∈ r.items, escapeChar ∉ p.toList)
    (style : Style) : Shows (r.render style) (r.render .plain) := by
  unfold render
  split
  · exact .self (by decide)
  · have hheading : Shows (style.heading "Implementation priorities:")
        "Implementation priorities:" := .heading (by decide) style
    have hitems : Shows (String.join (r.items.map ("\n  - " ++ ·)))
        (String.join (r.items.map ("\n  - " ++ ·))) := by
      refine Shows.join (List.forall₂_same.mpr fun l hl => ?_)
      obtain ⟨p, hp, rfl⟩ := List.mem_map.mp hl
      exact (Shows.self (by decide)).append (.self (h p hp))
    refine (hheading.append hitems).append ?_
    split
    · have hcount := Shows.printed (isPrinted_repr r.omitted)
      exact ((Shows.self (by decide)).append hcount).append (.self (by decide))
    · exact .self (by decide)

theorem shows_renderDocument {report : Report} {remediation : Option Remediation}
    (h : report.Avoids escapeChar)
    (hitems : ∀ r ∈ remediation, ∀ p ∈ r.items, escapeChar ∉ p.toList) (style : Style) :
    Shows (renderDocument report remediation style) (renderDocument report remediation .plain) := by
  unfold renderDocument
  refine ((report.shows_render h style).append ?_).append (.self (by decide))
  cases remediation with
  | none => exact .self (show escapeChar ∉ "".toList by decide)
  | some r =>
    by_cases hempty : r.isEmpty
    · simp only [hempty, if_pos]
      exact .self (by decide)
    · simp only [hempty]
      exact (Shows.self (by decide)).append (r.shows_render (hitems r rfl) style)

/-! ## The saved file -/

namespace FileSystem

variable {fs : FileSystem} {o : CheckOptions} {report : Report} {path display : String}

/-- A report that is saved is what its file holds then. -/
theorem readBytes_of_saved (hout : o.output = some path)
    (hsaved : (fs.saveReport o report).1 = .saved display) :
    (fs.saveReport o report).2.readBytes path = .ok (o.document .plain report).toUTF8 := by
  cases hwrite : fs.write path (o.document .plain report).toUTF8 with
  | error cause =>
    rw [saveReport_of_error hout hwrite] at hsaved
    cases hsaved
  | ok after =>
    rw [saveReport_of_ok hout hwrite]
    exact (write_leaves hwrite).1

/-- What a check ends with is what was found out before. -/
theorem checked_of_outcome {style : Style}
    (h : (fs.runCheck o style).value.outcome = .ok report) : fs.checked o = .ok report := by
  cases hcheck : fs.checked o with
  | error e =>
    rw [runCheck_of_error hcheck] at h
    cases h
  | ok found =>
    rw [runCheck_of_ok hcheck] at h
    exact h

end FileSystem

/-- The styles differ in codes only, and the plain one has none. -/
def OnlyColours (text : Style → String) : Prop :=
  escapeChar ∉ (text .plain).toList ∧ ∀ style, withoutCodes (text style) = text .plain

theorem onlyColours_of_shows {text : Style → String}
    (h : ∀ style, Shows (text style) (text .plain)) : OnlyColours text :=
  ⟨(h .plain).plain, fun style => (h style).withoutCodes⟩

/--
When no path of a report has an escape character, colours are all that the styles of its texts
differ in, and the plain texts have none: the report, the verdict, the remediation for any limit and
the document with or without it. So what a check saves is the document that it prints, without the
codes.
-/
theorem styles_differ_in_codes {r : Report} (h : r.Avoids escapeChar) :
    OnlyColours r.render ∧ OnlyColours r.verdict ∧ OnlyColours (renderDocument r none) ∧
    (∀ limit, OnlyColours (r.remediation limit).render ∧
      OnlyColours (renderDocument r (some (r.remediation limit)))) ∧
    ∀ (fs : FileSystem) (o : CheckOptions) (style : Style) (path display : String),
      (fs.runCheck o style).value.outcome = .ok r → o.output = some path →
      (fs.saveReport o r).1 = .saved display →
      let run := (fs.runCheck o style).value
      let document := o.document style r
      (∃ below, run.printed = document ++ "\n" ++ below) ∧
        run.files.readBytes path = .ok (withoutCodes document).toUTF8 := by
  have hdocument : ∀ limit, OnlyColours (renderDocument r (some (r.remediation limit))) := by
    intro limit
    refine onlyColours_of_shows (shows_renderDocument h ?_)
    rintro _ ⟨⟩
    exact Report.unescaped_remediation h limit
  have halone : OnlyColours (renderDocument r none) :=
    onlyColours_of_shows (shows_renderDocument h (by simp))
  refine ⟨onlyColours_of_shows (Report.shows_render h), onlyColours_of_shows r.shows_verdict,
    halone, fun limit => ⟨?_, hdocument limit⟩, ?_⟩
  · exact onlyColours_of_shows (Remediation.shows_render (Report.unescaped_remediation h limit))
  · intro fs o style path display hrun hout hsaved run document
    have hplain : withoutCodes document = o.document .plain r := by
      show withoutCodes (renderDocument r (o.remediation r) style) =
        renderDocument r (o.remediation r) .plain
      unfold CheckOptions.remediation
      split
      · exact (hdocument o.limit).2 style
      · exact halone.2 style
    have hvalue : run = _ := FileSystem.runCheck_of_ok (FileSystem.checked_of_outcome hrun)
    rw [hvalue, hplain]
    exact ⟨⟨_, (o.printed_eq style r _).trans (String.append_assoc ..)⟩,
      FileSystem.readBytes_of_saved hout hsaved⟩

/-- A path may look like what stands behind an escape character. -/
theorem styles_differ_in_codes_lookalike :
    let fs : FileSystem := ⟨.directory [("layout.yaml", .file "src:\n '[31m':\n lib.rs:".toUTF8),
      ("src", .directory [("main.rs", .file ByteArray.empty)])], []⟩
    let r : Report := ⟨[], ["src/[31m", "src/lib.rs"], ["src/main.rs"], []⟩
    let run := (fs.runCheck projectOptions .colored).value
    r.Avoids escapeChar ∧ withoutCodes (r.render .colored) = r.render .plain ∧
      run.outcome = .ok r ∧ run.files.readBytes "/src/report.txt" =
        .ok (withoutCodes (projectOptions.document .colored r)).toUTF8 := by
  intro fs r run
  have hr : r.Avoids escapeChar := by
    intro s
    cases s <;> decide
  have hload : (fs.loadSpecification .nested "/layout.yaml").outcome =
      .ok (.branch "src" [.leaf "[31m", .leaf "lib.rs"]) :=
    outcome_loadSpecification rfl (by decide +kernel)
  have hscan : (fs.scan [] "/src").outcome = .ok (.branch "src" [.leaf "main.rs"]) := by
    decide +kernel
  have hcheck : fs.checked projectOptions = .ok r :=
    (outcome_check_of_ok hload hscan).trans (by decide +kernel)
  have hrun : run.outcome = .ok r :=
    congrArg CheckRun.outcome (FileSystem.runCheck_of_ok hcheck)
  have hwrite : ∀ content, fs.write "/src/report.txt" content =
      .ok ⟨fs.root.putAt ["src"] "report.txt" (.file content), []⟩ := fun _ => rfl
  obtain ⟨display, hsaved⟩ : ∃ display, (fs.saveReport projectOptions r).1 = .saved display :=
    ⟨_, congrArg Prod.fst (FileSystem.saveReport_of_ok rfl (hwrite _))⟩
  obtain ⟨⟨_, hrender⟩, _, _, _, hsave⟩ := styles_differ_in_codes hr
  exact ⟨hr, hrender .colored, hrun, (hsave fs projectOptions .colored _ _ hrun rfl hsaved).2⟩

end LayoutCheck
