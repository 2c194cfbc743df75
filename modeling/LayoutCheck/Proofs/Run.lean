import LayoutCheck.CommandLine
import LayoutCheck.Proofs.Ignoring
import LayoutCheck.Proofs.Verdict
import LayoutCheck.Proofs.Written

/-!
How a whole check ends.

A check fails when the declared tree cannot be loaded, or else when there is nothing at the root;
then it leaves nothing behind (`runCheck_of_error`). Otherwise it has the report on the two trees,
whatever becomes of the file in which the report is saved (`runCheck_of_ok`).
-/

namespace LayoutCheck

variable {declared : Attempt Specification.LoadError Tree} {actual : Attempt Scan.ScanError Tree}
  {d a : Tree} {fs after : FileSystem} {o : CheckOptions} {report : Report} {style : Style}
  {path : String}

/-! ## The outcome of a check -/

theorem outcome_check_of_unloaded {cause : Specification.LoadError}
    (h : declared.outcome = .error cause) :
    (check declared actual).outcome = .error (.specification cause) := by
  rw [check, Attempt.outcome_bind_of_error (Attempt.outcome_mapError_of_error h _)]

theorem outcome_check_of_unscanned {e : Scan.ScanError} (hd : declared.outcome = .ok d)
    (h : actual.outcome = .error e) : (check declared actual).outcome = .error (.scan e) := by
  rw [check, Attempt.outcome_bind_of_ok (Attempt.outcome_mapError_of_ok hd _),
    Attempt.outcome_bind_of_error (Attempt.outcome_mapError_of_error h _)]

theorem outcome_check_of_ok (hd : declared.outcome = .ok d) (ha : actual.outcome = .ok a) :
    (check declared actual).outcome =
      .ok (Report.ofResults (compareRoots d a).value.results) := by
  rw [check, Attempt.outcome_bind_of_ok (Attempt.outcome_mapError_of_ok hd _),
    Attempt.outcome_bind_of_ok (Attempt.outcome_mapError_of_ok ha _)]
  rfl

namespace FileSystem

theorem exists_outcome_scan_of_lookUp_error {cause : OsError} (h : fs.lookUp path = .error cause)
    (extra : List String) : ∃ e, (fs.scan extra path).outcome = .error e := by
  have hway : (fs.scanRoot path).way = .error cause := by
    rw [scanRoot, h]
    rfl
  unfold scan Scan.scan
  rw [hway]
  cases cause <;> exact ⟨_, rfl⟩

theorem exists_outcome_scan_of_lookUp {entry : Entry} (h : fs.lookUp path = .ok entry)
    (extra : List String) : ∃ t, (fs.scan extra path).outcome = .ok t :=
  Scan.exists_outcome_scan fs.surroundings (way_scanRoot_of_lookUp h) extra

/-! ## What a check leaves -/

/-- What is found out before anything is printed or saved. -/
def checked (fs : FileSystem) (o : CheckOptions) : Except CheckError Report :=
  (check (fs.loadSpecification o.dialect o.specification) (fs.scan o.ignored o.root)).outcome

/-- The settings of the report have no influence on what is found out. -/
theorem checked_settings (fs : FileSystem) (o : CheckOptions) (output : Option String)
    (suggest : Bool) (limit : Nat) :
    fs.checked { o with output := output, suggest := suggest, limit := limit } = fs.checked o :=
  rfl

/-- Without a report nothing is printed and no file is changed. -/
theorem runCheck_of_error {e : CheckError} (h : fs.checked o = .error e) :
    (fs.runCheck o style).value = ⟨.error e, "", fs⟩ := by
  simp only [runCheck, Logged.value_bind]
  rw [checked, Attempt.outcome] at h
  rw [h]
  rfl

theorem runCheck_of_ok (h : fs.checked o = .ok report) :
    (fs.runCheck o style).value =
      ⟨.ok report, o.printed style report (fs.saveReport o report).1,
        (fs.saveReport o report).2⟩ := by
  simp only [runCheck, Logged.value_bind]
  rw [checked, Attempt.outcome] at h
  rw [h]
  rfl

theorem saveReport_of_error {cause : OsError} (hout : o.output = some path)
    (hwrite : fs.write path (o.document .plain report).toUTF8 = .error cause) :
    fs.saveReport o report = (.failed (fs.display path) cause, fs) := by
  simp only [saveReport, hout, hwrite]

theorem saveReport_of_ok (hout : o.output = some path)
    (hwrite : fs.write path (o.document .plain report).toUTF8 = .ok after) :
    fs.saveReport o report = (.saved (after.display path), after) := by
  simp only [saveReport, hout, hwrite]

end FileSystem

/-! ## What is printed -/

namespace Saved

theorem text_notAsked : notAsked.text = "" := rfl

theorem text_failed (display : String) (cause : OsError) : (failed display cause).text = "" := rfl

theorem text_saved (display : String) :
    (saved display).text = "\nDetailed report saved to: " ++ display ++ "\n" := rfl

end Saved

namespace CheckOptions

/-- The document as it is saved: the report, then what to create first if that was asked for. -/
theorem document_plain (o : CheckOptions) (report : Report) :
    o.document .plain report = report.render .plain ++
      (if o.suggest ∧ ¬ (report.remediation o.limit).isEmpty then
        "\n\n" ++ (report.remediation o.limit).render .plain else "") ++ "\n" := by
  by_cases hs : o.suggest <;> by_cases he : (report.remediation o.limit).isEmpty <;>
    simp [document, remediation, renderDocument, hs, he]

/-- What became of the file is told between the document and the verdict. -/
theorem printed_eq (o : CheckOptions) (style : Style) (report : Report) (saved : Saved) :
    o.printed style report saved =
      o.document style report ++ "\n" ++ saved.text ++ ("\n" ++ report.verdict style ++ "\n") := by
  simp [printed, String.append_assoc]

end CheckOptions

/-- The program passes exactly the checks whose reports list no issue. -/
theorem CommandLine.code_run {arguments : List String} {a : CommandLine.Arguments}
    (hparse : CommandLine.parse arguments = .ok a)
    (h : (fs.runCheck a.check style).value.outcome = .ok report) :
    (CommandLine.run fs arguments style).1.code =
      if report.missing = [] ∧ report.extra = [] ∧ report.typeMismatch = [] then 0 else 1 := by
  simp only [run, hparse, exitOfCheck, h, ← Report.isCompliant_iff]

namespace FileSystem

section Saving

variable (h : fs.checked o = .ok report)

include h

/-- With other settings of the report the check has the same report. -/
theorem outcome_runCheck (output : Option String) (suggest : Bool) (limit : Nat) (style : Style) :
    (fs.runCheck { o with output := output, suggest := suggest, limit := limit }
      style).value.outcome = .ok report := by
  rw [runCheck_of_ok ((checked_settings fs o output suggest limit).trans h)]

theorem printed_runCheck_unsaved (style : Style) :
    (fs.runCheck { o with output := none } style).value.printed =
      o.document style report ++ "\n" ++ ("\n" ++ report.verdict style ++ "\n") := by
  have hunsaved : fs.checked { o with output := none } = .ok report :=
    (checked_settings fs o none o.suggest o.limit).trans h
  have hsave : fs.saveReport { o with output := none } report = (.notAsked, fs) := rfl
  rw [runCheck_of_ok hunsaved, hsave, CheckOptions.printed_eq, Saved.text_notAsked,
    String.append_empty]
  rfl

theorem files_runCheck_unsaved (hout : o.output = none) :
    (fs.runCheck o style).value.files = fs := by
  rw [runCheck_of_ok h, saveReport, hout]

/-- A report that cannot be saved makes no difference. -/
theorem runCheck_of_unwritable (style : Style) {cause : OsError} (hout : o.output = some path)
    (hwrite : fs.write path (o.document .plain report).toUTF8 = .error cause) :
    (fs.runCheck o style).value.printed =
        (fs.runCheck { o with output := none } style).value.printed ∧
      (fs.runCheck o style).value.files = fs := by
  rw [printed_runCheck_unsaved h, runCheck_of_ok h, saveReport_of_error hout hwrite,
    CheckOptions.printed_eq, Saved.text_failed, String.append_empty]
  exact ⟨rfl, rfl⟩

/-- A report that can be saved is written, and two lines tell of it. -/
theorem runCheck_of_writable (style : Style) (hout : o.output = some path)
    (hwrite : fs.write path (o.document .plain report).toUTF8 = .ok after) :
    (fs.runCheck o style).value.files = after ∧
      ∃ above below, (fs.runCheck { o with output := none } style).value.printed = above ++ below ∧
        (fs.runCheck o style).value.printed =
          above ++ ("\nDetailed report saved to: " ++ after.display path ++ "\n") ++ below := by
  rw [printed_runCheck_unsaved h, runCheck_of_ok h, saveReport_of_ok hout hwrite]
  refine ⟨rfl, o.document style report ++ "\n", "\n" ++ report.verdict style ++ "\n", rfl, ?_⟩
  rw [CheckOptions.printed_eq, Saved.text_saved]

end Saving

end FileSystem

/--
How a whole check ends. When the declared tree cannot be loaded, or else when there is nothing at
the root, it fails and leaves nothing behind. Otherwise it has the report on the two trees, which no
other option changes, and the program passes when the report lists no issue. A report that can be
saved is then the whole content of its file, no other place has changed, and two lines more are
printed; one that cannot be saved changes nothing.
-/
theorem runCheck_ends (fs : FileSystem) (o : CheckOptions) (style : Style) :
    let run := (fs.runCheck o style).value
    let loaded := (fs.loadSpecification o.dialect o.specification).outcome
    (∀ cause, loaded = .error cause →
      run.outcome = .error (.specification cause) ∧ run.printed = "" ∧ run.files = fs) ∧
    (∀ declared cause, loaded = .ok declared → fs.lookUp o.root = .error cause →
      ∃ e, run.outcome = .error (.scan e) ∧ run.printed = "" ∧ run.files = fs) ∧
    ∀ declared entry, loaded = .ok declared → fs.lookUp o.root = .ok entry →
      ∃ actual, (fs.scan o.ignored o.root).outcome = .ok actual ∧
        let report := Report.ofResults (compareRoots declared actual).value.results
        let unsaved := (fs.runCheck { o with output := none } style).value
        let content := (report.render .plain ++
          (if o.suggest ∧ ¬ (report.remediation o.limit).isEmpty then
            "\n\n" ++ (report.remediation o.limit).render .plain else "") ++ "\n").toUTF8
        run.outcome = .ok report ∧
        (∀ output suggest limit style',
          let o' := { o with output := output, suggest := suggest, limit := limit }
          (fs.runCheck o' style').value.outcome = .ok report ∧
            ∀ arguments a, CommandLine.parse arguments = .ok a → a.check = o' →
              (CommandLine.run fs arguments style').1.code =
                if report.missing = [] ∧ report.extra = [] ∧ report.typeMismatch = [] then 0
                else 1) ∧
        (o.output = none → run.files = fs) ∧
        ∀ path, o.output = some path →
          (∀ cause, fs.write path content = .error cause →
            run.printed = unsaved.printed ∧ run.files = fs) ∧
          ∀ after, fs.write path content = .ok after →
            run.files = after ∧ after.readBytes path = .ok content ∧ after.current = fs.current ∧
            (∃ trail, after.walk FileSystem.anywhere path = .ok trail ∧
              ∀ p, after.root.labelAt? p =
                if p = trail.place then some (.file content) else fs.root.labelAt? p) ∧
            ∃ above below, unsaved.printed = above ++ below ∧ run.printed =
              above ++ ("\nDetailed report saved to: " ++ after.display path ++ "\n") ++ below := by
  intro run loaded
  refine ⟨fun cause hload => ?_, fun declared cause hload hroot => ?_,
    fun declared entry hload hroot => ?_⟩
  · have hcheck : fs.checked o = _ := outcome_check_of_unloaded hload
    have hrun : run = _ := FileSystem.runCheck_of_error hcheck
    exact ⟨congrArg CheckRun.outcome hrun, congrArg CheckRun.printed hrun,
      congrArg CheckRun.files hrun⟩
  · obtain ⟨e, he⟩ := FileSystem.exists_outcome_scan_of_lookUp_error hroot o.ignored
    have hcheck : fs.checked o = _ := outcome_check_of_unscanned hload he
    have hrun : run = _ := FileSystem.runCheck_of_error hcheck
    exact ⟨e, congrArg CheckRun.outcome hrun, congrArg CheckRun.printed hrun,
      congrArg CheckRun.files hrun⟩
  · obtain ⟨actual, hscan⟩ := FileSystem.exists_outcome_scan_of_lookUp hroot o.ignored
    have hcheck : fs.checked o = _ := outcome_check_of_ok hload hscan
    refine ⟨actual, hscan, ?_⟩
    intro report unsaved content
    have hcontent : content = (o.document .plain report).toUTF8 :=
      congrArg String.toUTF8 (o.document_plain report).symm
    refine ⟨congrArg CheckRun.outcome (FileSystem.runCheck_of_ok hcheck), ?_,
      FileSystem.files_runCheck_unsaved hcheck, fun path hpath => ?_⟩
    · intro output suggest limit style' o'
      have houtcome := FileSystem.outcome_runCheck hcheck output suggest limit style'
      refine ⟨houtcome, fun arguments a hparse ha => ?_⟩
      exact CommandLine.code_run hparse (ha ▸ houtcome)
    · rw [hcontent]
      refine ⟨fun cause => FileSystem.runCheck_of_unwritable hcheck style hpath,
        fun after hwrite => ?_⟩
      obtain ⟨hfiles, hprinted⟩ := FileSystem.runCheck_of_writable hcheck style hpath hwrite
      obtain ⟨hread, hcurrent, hplaces⟩ := FileSystem.write_leaves hwrite
      exact ⟨hfiles, hread, hcurrent, hplaces, hprinted⟩

/-! ## A check that saves its report where it looks -/

theorem fromUTF8?_toUTF8 (text : String) : String.fromUTF8? text.toUTF8 = some text := by
  have hvalid : text.toUTF8.IsValidUTF8 := text.isValidUTF8
  rw [String.fromUTF8?, dif_pos hvalid]
  rfl

/-- A file that holds a text which declares a tree is loaded. -/
theorem outcome_loadSpecification {dialect : Specification.Dialect} {text : String}
    (hread : fs.readBytes path = .ok text.toUTF8)
    (hparse : (Specification.parse dialect text).outcome = .ok d) :
    (fs.loadSpecification dialect path).outcome = .ok d := by
  have htext : fs.readText path = .ok text := by
    rw [FileSystem.readText, hread]
    simp only [fromUTF8?_toUTF8]
  rw [FileSystem.loadSpecification, htext]
  unfold Specification.load
  rw [Attempt.outcome_bind_of_ok (a := ()) rfl]
  change Attempt.outcome (liftM (Log.debug _) >>= _) = _
  rw [Attempt.outcome_bind_of_ok (a := ()) rfl,
    Attempt.outcome_bind_of_ok (Attempt.outcome_mapError_of_ok hparse _)]
  rfl

def projectFiles : FileSystem :=
  ⟨.directory [("layout.yaml", .file "src:\n main.rs:".toUTF8),
    ("src", .directory [("main.rs", .file ByteArray.empty)])], []⟩

def projectOptions : CheckOptions where
  specification := "/layout.yaml"
  root := "/src"
  output := some "/src/report.txt"
  dialect := .nested
  ignored := []
  suggest := true
  limit := 10

theorem runCheck_ends_inside :
    (∃ cause, (projectFiles.runCheck { projectOptions with specification := "/none" }
      .colored).value.outcome = .error (.specification cause)) ∧
    (∃ e, (projectFiles.runCheck { projectOptions with root := "/none" } .colored).value.outcome =
      .error (.scan e)) ∧
    (projectFiles.runCheck { projectOptions with output := some "/src" } .colored).value.files =
      projectFiles ∧
    ∃ report, (projectFiles.runCheck projectOptions .colored).value.outcome = .ok report ∧
      (projectFiles.runCheck projectOptions .colored).value.files.readBytes "/src/report.txt" =
        .ok (projectOptions.document .plain report).toUTF8 := by
  have hload : (projectFiles.loadSpecification .nested "/layout.yaml").outcome =
      .ok (.branch "src" [.leaf "main.rs"]) := outcome_loadSpecification rfl (by decide +kernel)
  have hunloaded : ∃ cause, (projectFiles.loadSpecification .nested "/none").outcome =
      .error cause := ⟨_, rfl⟩
  have hroot : projectFiles.lookUp "/src" =
      .ok (.directory [("main.rs", .file ByteArray.empty)]) := rfl
  have hnoRoot : projectFiles.lookUp "/none" = .error .notFound := rfl
  have hwrite : ∀ content, projectFiles.write "/src/report.txt" content =
      .ok ⟨projectFiles.root.putAt ["src"] "report.txt" (.file content), []⟩ := fun _ => rfl
  have hunwritable : ∀ content, projectFiles.write "/src" content = .error .isDirectory :=
    fun _ => rfl
  refine ⟨?_, ?_, ?_, ?_⟩
  · obtain ⟨cause, hcause⟩ := hunloaded
    obtain ⟨hends, _⟩ :=
      runCheck_ends projectFiles { projectOptions with specification := "/none" } .colored
    exact ⟨cause, (hends cause hcause).1⟩
  · obtain ⟨_, hends, _⟩ :=
      runCheck_ends projectFiles { projectOptions with root := "/none" } .colored
    obtain ⟨e, he, _⟩ := hends _ _ hload hnoRoot
    exact ⟨e, he⟩
  · obtain ⟨_, _, hends⟩ :=
      runCheck_ends projectFiles { projectOptions with output := some "/src" } .colored
    obtain ⟨_, _, _, _, _, houtput⟩ := hends _ _ hload hroot
    exact ((houtput "/src" rfl).1 _ (hunwritable _)).2
  · obtain ⟨_, _, hends⟩ := runCheck_ends projectFiles projectOptions .colored
    obtain ⟨actual, _, houtcome, _, _, houtput⟩ := hends _ _ hload hroot
    obtain ⟨hfiles, hread, _⟩ := (houtput "/src/report.txt" rfl).2 _ (hwrite _)
    rw [← hfiles, ← CheckOptions.document_plain] at hread
    exact ⟨_, houtcome, hread⟩

end LayoutCheck
