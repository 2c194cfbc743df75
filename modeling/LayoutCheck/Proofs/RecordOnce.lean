import LayoutCheck.Proofs.Alignment
import LayoutCheck.Proofs.Declared

/-!
A comparison records no path twice.

A path that a step records has no status from the steps before it (`find?_follow_before`). So
nothing is logged but the notes of the steps, of which none is an error (`severity_of_mem_notes`),
and the results have one entry for each step that records (`size_results`).
-/

namespace LayoutCheck

variable {m : Message}

/-- A path that is recorded has no status before, when no path is recorded twice. -/
theorem Results.find?_follow_before {p : String} {s : Status} {before after : List Step}
    (h : ((recordings (before ++ .record p s :: after)).map Prod.fst).Nodup) :
    (empty.follow before).value.find? p = none := by
  rw [recordings_append, recordings_record, List.map_append, List.map_cons] at h
  have hp : p ∉ (recordings before).map Prod.fst := fun hmem =>
    (List.nodup_append.mp h).2.2 p hmem p (List.mem_cons_self ..) rfl
  rw [find?_follow, find?_empty, Option.none_or, lookup_eq_none]
  intro e he heq
  exact hp (List.mem_map.mpr ⟨e, he, heq⟩)

/-! ## The notes -/

theorem notes_missingBelow {cs : List Tree}
    (h : ∀ c ∈ cs, ∀ path, notes (missingSteps path c) = []) (path : String) :
    notes (missingBelow path cs) = [] := by
  induction cs with
  | nil => rfl
  | cons c cs ih =>
    have hc := h c (List.mem_cons_self ..) (joinPath path c.name)
    have hcs := ih (fun d hd => h d (List.mem_cons_of_mem c hd))
    rw [missingBelow, notes_append, hc, hcs, List.append_nil]

theorem notes_missingSteps (path : String) (t : Tree) : notes (missingSteps path t) = [] := by
  induction t using Tree.induction generalizing path with
  | file n d => rfl
  | directory n d cs ih =>
    have hcs := notes_missingBelow (fun c hc p => ih c hc p) path
    rw [missingSteps, notes_append, hcs]
    rfl

theorem notes_extraSteps (path : String) (cs : List Tree) (a : Tree) :
    notes (extraSteps path cs a) = [] := by
  simp [notes, extraSteps, List.filterMap_map]

theorem severity_of_mem_notes_compareBelow {cs : List Tree}
    (h : ∀ c ∈ cs, ∀ above actual, ∀ m ∈ notes (compareSteps above actual c), m.severity = .debug)
    (path : String) (a : Tree) (hm : m ∈ notes (compareBelow path a cs)) : m.severity = .debug := by
  induction cs with
  | nil => simp [compareBelow] at hm
  | cons c cs ih =>
    rw [compareBelow, notes_append, List.mem_append] at hm
    rcases hm with hm | hm
    · exact h c (List.mem_cons_self ..) _ _ m hm
    · exact ih (fun d hd => h d (List.mem_cons_of_mem c hd)) hm

/-- Only mismatches in kind are noted, for debugging. -/
theorem severity_of_mem_notes_compareSteps (above : String) (actual : Option Tree) (t : Tree)
    (hm : m ∈ notes (compareSteps above actual t)) : m.severity = .debug := by
  induction t using Tree.induction generalizing above actual m with
  | file n d =>
    cases actual with
    | none => simp [compareSteps, notes_missingSteps] at hm
    | some a =>
      cases hk : a.kind with
      | file => simp [compareSteps, hk] at hm
      | directory =>
        simp only [compareSteps, hk, mismatchSteps, notes_note, notes_record, notes_nil,
          List.mem_singleton] at hm
        rw [hm]
  | directory n d cs ih =>
    cases actual with
    | none => simp [compareSteps, notes_missingSteps] at hm
    | some a =>
      cases hk : a.kind with
      | file =>
        simp only [compareSteps, hk, mismatchSteps, notes_note, notes_record, notes_nil,
          List.mem_singleton] at hm
        rw [hm]
      | directory =>
        simp only [compareSteps, hk, notes_append, notes_extraSteps, notes_record, notes_nil,
          List.append_nil] at hm
        exact severity_of_mem_notes_compareBelow (fun c hc p o m => ih c hc p o) _ a hm

theorem severity_of_mem_notes_alignedSteps {e a : Tree} (hm : m ∈ notes (alignedSteps e a)) :
    m.severity = .debug := by
  unfold alignedSteps at hm
  split at hm
  · rw [notes_append, notes_extraSteps, List.append_nil] at hm
    exact severity_of_mem_notes_compareBelow
      (fun c _ above actual m => severity_of_mem_notes_compareSteps above actual c) _ a hm
  · simp at hm
  · exact severity_of_mem_notes_compareSteps _ _ _ hm

namespace Alignment

variable {l : Alignment}

/-- Beside the notes for debugging there is at most the warning that the roots do not match. -/
theorem severity_of_mem_notes (hm : m ∈ notes l.steps) :
    m.severity = .debug ∨ m = ⟨.warn, l.matched.text⟩ := by
  unfold steps at hm
  split at hm
  · rw [notes_note, List.mem_cons] at hm
    rcases hm with rfl | hm
    · exact .inr rfl
    · exact .inl (severity_of_mem_notes_compareSteps _ _ _ hm)
  · exact .inl (severity_of_mem_notes_alignedSteps hm)

theorem size_results (h : l.WellFormed) : l.results.size = (recordings l.steps).length :=
  (Results.perm_entries_follow_empty (nodup_recordings_steps h)).length_eq

end Alignment

theorem messages_compareRoots {e a : Tree} (he : e.WellFormed) (ha : a.WellFormed) :
    (compareRoots e a).messages = notes (alignRoots e a).steps ++
      [⟨.debug, s!"Compared roots: {(alignRoots e a).matched.text}"⟩] := by
  have hnodup := Alignment.nodup_recordings_steps (wellFormed_alignRoots he ha)
  have hfollow := Results.messages_follow (Results.fresh_empty hnodup)
  simp [compareRoots, hfollow, Log.debug]

/--
Comparing a tree that a document declares with an observed one records no path that has a status
already. So no message of the comparison is an error, and there are as many paths as recordings.
-/
theorem recorded_once {dialect : Specification.Dialect} {text : String} {e a : Tree}
    (he : (Specification.parse dialect text).outcome = .ok e) (ha : a.WellFormed) :
    let steps := (alignRoots e a).steps
    (∀ before p s after, steps = before ++ .record p s :: after →
      (Results.empty.follow before).value.find? p = none) ∧
    (∀ m ∈ (compareRoots e a).messages, m.severity ≠ .error) ∧
    (compareRoots e a).value.results.size = (recordings steps).length := by
  have hdeclared : e.WellFormed := (Specification.yields_parse dialect text e he).wellFormed
  have hl : (alignRoots e a).WellFormed := wellFormed_alignRoots hdeclared ha
  have hnodup := Alignment.nodup_recordings_steps hl
  refine ⟨?_, ?_, Alignment.size_results hl⟩
  · intro before p s after hsteps
    rw [hsteps] at hnodup
    exact Results.find?_follow_before hnodup
  · intro m hm
    rw [messages_compareRoots hdeclared ha, List.mem_append] at hm
    rcases hm with hm | hm
    · rcases Alignment.severity_of_mem_notes hm with h | rfl
      · simp [h]
      · simp
    · obtain rfl := List.mem_singleton.mp hm
      simp

theorem recorded_once_nested :
    let text := "lib: {mod.rs: module}\nmain.rs: entry point"
    let e := Tree.branch "src" [.branch "lib" [(Tree.leaf "mod.rs").describe "module"],
      (Tree.leaf "main.rs").describe "entry point"]
    let a := Tree.branch "src" [.leaf "lib", .leaf "README"]
    (Specification.parse .auto text).outcome = .ok e ∧ a.WellFormed ∧
      (compareRoots e a).value.results.size = 3 := by
  intro text e a
  have he : (Specification.parse .auto text).outcome = .ok e := by decide +kernel
  have ha : a.WellFormed := by decide
  obtain ⟨_, _, hsize⟩ := recorded_once he ha
  exact ⟨he, ha, hsize⟩

end LayoutCheck
