import LayoutCheck.Proofs.Share
import LayoutCheck.Proofs.Verdict
import Mathlib.Data.Finset.Card

/-!
What becomes of recorded statuses.

Recording one status more either adds a path or logs an error and changes nothing
(`ofList_concat`). So the first status of each path is kept (`find?_ofList`), every other one is
accounted for by an error (`length_messages_ofList`), and the report of the results lists each path
once, under its first status (`mem_pathsWith_ofList`).
-/

namespace LayoutCheck

def alreadyRecorded (path : String) (old new : Status) : Message :=
  ⟨.error, s!"Path '{path}' already recorded as {old.text}, ignoring {new.text}"⟩

namespace Results

variable {es : List (String × Status)} {p : String} {s : Status}

def pathCount (es : List (String × Status)) : Nat := (es.map Prod.fst).toFinset.card

theorem isSome_lookup_iff : (lookup p es).isSome ↔ p ∈ es.map Prod.fst := by
  simp [lookup]

/-! ## One status more -/

theorem recordAll_eq_follow (r : Results) (es : List (String × Status)) :
    r.recordAll es = r.follow (es.map fun e => .record e.1 e.2) := by
  induction es generalizing r with
  | nil => rfl
  | cons e es ih => simp only [recordAll, ih, List.map_cons, follow]

theorem recordAll_concat (r : Results) (es : List (String × Status)) (p : String) (s : Status) :
    r.recordAll (es ++ [(p, s)]) = r.recordAll es >>= fun r => r.record p s := by
  induction es generalizing r with
  | nil => simp [recordAll]
  | cons e es ih =>
    obtain ⟨q, t⟩ := e
    simp only [List.cons_append, recordAll, ih, bind_assoc]

/-- A path ends with the first of its statuses. -/
theorem find?_ofList (es : List (String × Status)) (p : String) :
    (ofList es).value.find? p = lookup p es := by
  have hrecordings : recordings (es.map fun e => .record e.1 e.2) = es := by
    simp [recordings, List.filterMap_map, Function.comp_def, Step.entry?]
  rw [ofList, recordAll_eq_follow, find?_follow, find?_empty, Option.none_or, hrecordings]

theorem record_of_find?_eq_some {r : Results} {old : Status} (h : r.find? p = some old)
    (new : Status) : r.record p new = ⟨r, [alreadyRecorded p old new]⟩ := by
  rw [record, h]
  rfl

/-- One status more is either that of a new path or the occasion of an error. -/
theorem ofList_concat (es : List (String × Status)) (p : String) (s : Status) :
    ofList (es ++ [(p, s)]) =
      match lookup p es with
      | none => ⟨(ofList es).value.insert p s, (ofList es).messages⟩
      | some old => ⟨(ofList es).value, (ofList es).messages ++ [alreadyRecorded p old s]⟩ := by
  have hstep : ofList (es ++ [(p, s)]) =
      ⟨((ofList es).value.record p s).value,
        (ofList es).messages ++ ((ofList es).value.record p s).messages⟩ :=
    recordAll_concat empty es p s
  have hfind := find?_ofList es p
  rw [hstep]
  cases hlookup : lookup p es with
  | none =>
    rw [hlookup] at hfind
    simp [record, hfind]
  | some old => rw [record_of_find?_eq_some (hfind.trans hlookup)]

theorem pathCount_concat (es : List (String × Status)) (p : String) (s : Status) :
    pathCount (es ++ [(p, s)]) =
      if (lookup p es).isSome then pathCount es else pathCount es + 1 := by
  have hpaths : ((es ++ [(p, s)]).map Prod.fst).toFinset =
      Insert.insert p (es.map Prod.fst).toFinset := by
    ext q
    simp
  have hmem : p ∈ (es.map Prod.fst).toFinset ↔ (lookup p es).isSome := by
    rw [List.mem_toFinset, isSome_lookup_iff]
  rw [pathCount, hpaths]
  split
  · rename_i hold
    rw [Finset.insert_eq_of_mem (hmem.mpr hold), pathCount]
  · rename_i hnew
    rw [Finset.card_insert_of_notMem (mt hmem.mp hnew), pathCount]

/-- What is recorded beside the first status of each path is logged. -/
theorem length_messages_ofList (es : List (String × Status)) :
    (ofList es).messages.length + pathCount es = es.length := by
  induction es using List.reverseRecOn with
  | nil => rfl
  | append_singleton es e ih =>
    obtain ⟨p, s⟩ := e
    rw [ofList_concat, pathCount_concat, List.length_append, List.length_singleton]
    cases lookup p es with
    | none => exact congrArg (· + 1) ih
    | some old =>
      simp only [Option.isSome_some, if_pos, List.length_append, List.length_singleton]
      omega

/-- Nothing else is logged. -/
theorem exists_of_mem_messages_ofList {m : Message} (h : m ∈ (ofList es).messages) :
    ∃ before p old new after, es = before ++ (p, new) :: after ∧ lookup p before = some old ∧
      m = alreadyRecorded p old new := by
  induction es using List.reverseRecOn with
  | nil => cases h
  | append_singleton es e ih =>
    obtain ⟨p, s⟩ := e
    have hlast : m ∈ (ofList es).messages ∨
        ∃ old, lookup p es = some old ∧ m = alreadyRecorded p old s := by
      rw [ofList_concat] at h
      cases hlookup : lookup p es with
      | none => exact .inl (by simpa [hlookup] using h)
      | some old => simpa [hlookup] using h
    rcases hlast with hm | ⟨old, hlookup, rfl⟩
    · obtain ⟨before, q, old, new, after, rfl, hlookup, rfl⟩ := ih hm
      exact ⟨before, q, old, new, after ++ [(p, s)], by simp, hlookup, rfl⟩
    · exact ⟨es, p, old, s, [], rfl, hlookup, rfl⟩

/-! ## The report -/

theorem size_ofList (es : List (String × Status)) : (ofList es).value.size = pathCount es := by
  have hnodup : (ofList es).value.paths.Nodup :=
    List.Pairwise.imp Std.ne_of_lt (List.pairwise_map.mpr (ofList es).value.ascending)
  have hmem : ∀ p, p ∈ (ofList es).value.paths ↔ p ∈ es.map Prod.fst := by
    intro p
    rw [← isSome_lookup_iff, ← find?_ofList, find?, isSome_lookup_iff, paths]
  have hpaths : (ofList es).value.paths.toFinset = (es.map Prod.fst).toFinset := by
    ext p
    rw [List.mem_toFinset, List.mem_toFinset, hmem]
  rw [pathCount, ← hpaths, List.toFinset_card_of_nodup hnodup, paths, List.length_map, size]

/-- What was not declared is extra. -/
theorem expectedTotal_add_extra (r : Results) :
    (Report.ofResults r).counts.expectedTotal + (Report.ofResults r).counts.extra = r.size := by
  rw [expectedTotal_eq_length]
  show (r.pathsWhere (· ≠ .extra)).length + (r.pathsWith .extra).length = r.size
  have hsplit := List.length_eq_length_filter_add (l := r.entries)
    (fun x : String × Status => decide (x.2 = .extra))
  rw [pathsWhere, pathsWith, List.length_map, List.length_map, size, Nat.add_comm]
  simpa using hsplit.symm

theorem mem_pathsWith_ofList :
    p ∈ (Report.ofResults (ofList es).value).pathsWith s ↔ lookup p es = some s := by
  rw [Report.pathsWith_ofResults, mem_pathsWith, find?_ofList]

/--
The first status of a path is the one that counts. Every later one is an error that changes nothing,
and the report lists each path once, in order and under its first status: the numbers add up to the
number of paths, what was declared and what is extra, and the report is compliant unless the first
status of a path is an issue. So in which order statuses are recorded matters only for which one is
the first of its path.
-/
theorem report_of_first_statuses (es : List (String × Status)) :
    let recorded := ofList es
    let report := Report.ofResults recorded.value
    (∀ p, recorded.value.find? p = lookup p es) ∧
    (∀ before p new after old, es = before ++ (p, new) :: after → lookup p before = some old →
      (ofList before).value.record p new =
        ⟨(ofList before).value, [alreadyRecorded p old new]⟩) ∧
    (∀ m ∈ recorded.messages, ∃ before p old new after, es = before ++ (p, new) :: after ∧
      lookup p before = some old ∧ m = alreadyRecorded p old new) ∧
    recorded.messages.length + pathCount es = es.length ∧
    (∀ s, (report.pathsWith s).Pairwise (· < ·)) ∧
    (∀ s t, s ≠ t → (report.pathsWith s).Disjoint (report.pathsWith t)) ∧
    (∀ s p, p ∈ report.pathsWith s ↔ lookup p es = some s) ∧
    (∀ p, (∃ s, p ∈ report.pathsWith s) ↔ p ∈ es.map Prod.fst) ∧
    report.counts.compliant + report.counts.missing + report.counts.extra +
      report.counts.typeMismatch = pathCount es ∧
    report.counts.expectedTotal + report.counts.extra = pathCount es ∧
    (report.isCompliant ↔ ∀ p, ∀ s ∈ Status.issues, lookup p es ≠ some s) ∧
    ∀ es', (∀ p, lookup p es' = lookup p es) → Report.ofResults (ofList es').value = report := by
  intro recorded report
  have hmem : ∀ s p, p ∈ report.pathsWith s ↔ lookup p es = some s := fun s p =>
    mem_pathsWith_ofList
  have htotal : report.counts.expectedTotal + report.counts.extra = pathCount es := by
    rw [expectedTotal_add_extra, size_ofList]
  refine ⟨find?_ofList es, ?_, fun m => exists_of_mem_messages_ofList, length_messages_ofList es,
    ?_, ?_, hmem, ?_, ?_, htotal, ?_, ?_⟩
  · intro before p new after old _ hold
    exact record_of_find?_eq_some ((find?_ofList before p).trans hold) new
  · intro s
    rw [Report.pathsWith_ofResults]
    exact ascending_pathsWith _ s
  · intro s t hne p hs ht
    rw [hmem] at hs ht
    exact hne (Option.some.inj (hs.symm.trans ht))
  · intro p
    rw [← isSome_lookup_iff, Option.isSome_iff_exists]
    exact exists_congr fun s => hmem s p
  · rw [← htotal, Counts.expectedTotal]
    omega
  · refine (isCompliant_ofResults _).trans (forall_congr' fun p => forall_congr' fun s => ?_)
    rw [find?_ofList es p, Status.mem_issues_iff]
    tauto
  · intro es' hfirst
    refine congrArg Report.ofResults (ext_find? fun p => ?_)
    rw [find?_ofList, find?_ofList, hfirst]

/-- Four statuses of two paths, and the same ones in another order. -/
theorem report_of_first_statuses_reordered :
    let es : List (String × Status) :=
      [("src/lib", .missing), ("src/a", .compliant), ("src/lib", .compliant), ("src/a", .extra)]
    let es' : List (String × Status) :=
      [("src/a", .compliant), ("src/a", .extra), ("src/lib", .missing), ("src/lib", .compliant)]
    (∀ p, lookup p es' = lookup p es) ∧ (ofList es).messages.length + 2 = 4 ∧
      Report.ofResults (ofList es).value = ⟨["src/a"], ["src/lib"], [], []⟩ ∧
      Report.ofResults (ofList es').value = Report.ofResults (ofList es).value := by
  intro es es'
  have hfirst : ∀ p, lookup p es' = lookup p es := by
    intro p
    by_cases hlib : "src/lib" = p
    · subst hlib
      decide
    · by_cases ha : "src/a" = p <;> simp [es, es', lookup, hlib, ha]
  obtain ⟨_, _, _, hmessages, _, _, _, _, _, _, _, hreport⟩ := report_of_first_statuses es
  exact ⟨hfirst, hmessages, by decide, hreport es' hfirst⟩

end Results

end LayoutCheck
