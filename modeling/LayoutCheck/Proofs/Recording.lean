import LayoutCheck.Comparison

/-!
What a list of steps leaves in the results.

A path ends with the first status that a step gives it (`find?_follow`). When no path is recorded
twice, nothing is logged beside the notes (`messages_follow`) and the results hold exactly what was
recorded (`perm_entries_follow`).
-/

namespace LayoutCheck

def recordings (steps : List Step) : List (String × Status) := steps.filterMap Step.entry?

/-- The messages that the steps log themselves. -/
def notes (steps : List Step) : List Message :=
  steps.filterMap fun
    | .record .. => none
    | .note m => some m

@[simp] theorem recordings_append (ss ts : List Step) :
    recordings (ss ++ ts) = recordings ss ++ recordings ts := List.filterMap_append

@[simp] theorem notes_append (ss ts : List Step) : notes (ss ++ ts) = notes ss ++ notes ts :=
  List.filterMap_append

@[simp] theorem recordings_nil : recordings [] = [] := rfl

@[simp] theorem recordings_record (p : String) (s : Status) (ss : List Step) :
    recordings (.record p s :: ss) = (p, s) :: recordings ss := rfl

@[simp] theorem recordings_note (m : Message) (ss : List Step) :
    recordings (.note m :: ss) = recordings ss := rfl

@[simp] theorem notes_nil : notes [] = [] := rfl

@[simp] theorem notes_record (p : String) (s : Status) (ss : List Step) :
    notes (.record p s :: ss) = notes ss := rfl

@[simp] theorem notes_note (m : Message) (ss : List Step) : notes (.note m :: ss) = m :: notes ss :=
  rfl

namespace Results

variable {r : Results} {p : String} {s : Status} {steps : List Step}

theorem find?_empty (p : String) : empty.find? p = none := rfl

/-- A path keeps the status that it had, or gets the first one that a step gives it. -/
theorem find?_follow (r : Results) (steps : List Step) (p : String) :
    (r.follow steps).value.find? p = (r.find? p).or (lookup p (recordings steps)) := by
  induction steps generalizing r with
  | nil => simp [follow, lookup]
  | cons step steps ih =>
    cases step with
    | record q t =>
      simp only [follow, Logged.value_bind, ih, find?_record, recordings_record, Option.or_assoc]
      by_cases hp : p = q
      · subst hp
        simp [lookup_cons_self]
      · simp [hp, lookup_cons_of_ne (e := (q, t)) hp]
    | note m => simpa [follow] using ih r

theorem lookup_eq_none {es : List (String × Status)} : lookup p es = none ↔ ∀ e ∈ es, e.1 ≠ p := by
  simp [lookup]

theorem lookup_of_mem {es : List (String × Status)} (h : es.Pairwise (fun a b => a.1 < b.1))
    (hmem : (p, s) ∈ es) : lookup p es = some s := by
  induction es with
  | nil => simp at hmem
  | cons e es ih =>
    obtain ⟨he, hes⟩ := List.pairwise_cons.mp h
    rcases List.mem_cons.mp hmem with rfl | hmem
    · exact lookup_cons_self p s es
    · have hne : p ≠ e.1 := fun heq => String.lt_irrefl _ (heq ▸ he _ hmem)
      rw [lookup_cons_of_ne hne]
      exact ih hes hmem

/-- The entries are what the results say about each path. -/
theorem mem_entries : (p, s) ∈ r.entries ↔ r.find? p = some s := by
  constructor
  · exact lookup_of_mem r.ascending
  · intro h
    obtain ⟨⟨q, t⟩, hf, rfl⟩ := Option.map_eq_some_iff.mp h
    obtain rfl : q = p := by simpa using List.find?_some hf
    exact List.mem_of_find?_eq_some hf

theorem mem_pathsWith : p ∈ r.pathsWith s ↔ r.find? p = some s := by
  rw [← mem_entries]
  simp [pathsWith]

theorem ascending_pathsWith (r : Results) (s : Status) : (r.pathsWith s).Pairwise (· < ·) :=
  List.pairwise_map.mpr (r.ascending.filter _)

theorem nodup_pathsWith (r : Results) (s : Status) : (r.pathsWith s).Nodup := by
  refine (r.ascending_pathsWith s).imp ?_
  rintro p q hlt rfl
  exact String.lt_irrefl p hlt

theorem perm_insertEntry {es : List (String × Status)} (h : lookup p es = none) :
    (insertEntry p s es).Perm ((p, s) :: es) := by
  induction es with
  | nil => exact .refl _
  | cons e es ih =>
    rw [lookup_eq_none] at h
    simp only [insertEntry]
    split
    · exact .refl _
    · split
      · rename_i he
        exact absurd he.symm (h e (List.mem_cons_self ..))
      · have hes : lookup p es = none :=
          lookup_eq_none.mpr (fun x hx => h x (List.mem_cons_of_mem e hx))
        exact ((ih hes).cons e).trans (.swap _ _ _)

/-- None of the paths has a status yet, and none comes twice. -/
def Fresh (r : Results) (es : List (String × Status)) : Prop :=
  (es.map Prod.fst).Nodup ∧ ∀ e ∈ es, r.find? e.1 = none

theorem fresh_empty {es : List (String × Status)} (h : (es.map Prod.fst).Nodup) :
    empty.Fresh es := ⟨h, fun e _ => find?_empty e.1⟩

theorem Fresh.head {es : List (String × Status)} (h : r.Fresh ((p, s) :: es)) :
    r.find? p = none := h.2 (p, s) (List.mem_cons_self ..)

theorem Fresh.tail {es : List (String × Status)} (h : r.Fresh ((p, s) :: es)) :
    (r.insert p s).Fresh es := by
  obtain ⟨hp, hes⟩ := List.nodup_cons.mp h.1
  refine ⟨hes, fun e he => ?_⟩
  have hne : e.1 ≠ p := fun heq => hp (List.mem_map.mpr ⟨e, he, heq⟩)
  rw [find?_insert, h.2 e (List.mem_cons_of_mem _ he)]
  simp [hne]

/-- A path without a status gets the one that is recorded, silently. -/
theorem follow_record_of_none (h : r.find? p = none) (s : Status) (steps : List Step) :
    r.follow (.record p s :: steps) = (r.insert p s).follow steps := by
  simp [follow, record, h]

/-- Steps that record no path twice add just what they record. -/
theorem perm_entries_follow (h : r.Fresh (recordings steps)) :
    (r.follow steps).value.entries.Perm (recordings steps ++ r.entries) := by
  induction steps generalizing r with
  | nil => exact .refl _
  | cons step steps ih =>
    cases step with
    | record p s =>
      rw [recordings_record] at h
      have hrest := ih h.tail
      have hfirst : (r.insert p s).entries.Perm ((p, s) :: r.entries) := perm_insertEntry h.head
      rw [follow_record_of_none h.head, recordings_record]
      exact (hrest.trans (hfirst.append_left _)).trans List.perm_middle
    | note m => simpa [follow] using ih h

/-- Steps that record no path twice log their notes and nothing else. -/
theorem messages_follow (h : r.Fresh (recordings steps)) :
    (r.follow steps).messages = notes steps := by
  induction steps generalizing r with
  | nil => rfl
  | cons step steps ih =>
    cases step with
    | record p s =>
      rw [recordings_record] at h
      rw [follow_record_of_none h.head, notes_record]
      exact ih h.tail
    | note m => simpa [follow] using ih h

/-! ## Recording from nothing -/

theorem perm_entries_follow_empty (h : ((recordings steps).map Prod.fst).Nodup) :
    (empty.follow steps).value.entries.Perm (recordings steps) := by
  simpa [empty] using perm_entries_follow (fresh_empty h)

theorem find?_follow_empty (h : ((recordings steps).map Prod.fst).Nodup) :
    (empty.follow steps).value.find? p = some s ↔ (p, s) ∈ recordings steps := by
  rw [← mem_entries, (perm_entries_follow_empty h).mem_iff]

theorem perm_pathsWith_follow_empty (h : ((recordings steps).map Prod.fst).Nodup) (s : Status) :
    ((empty.follow steps).value.pathsWith s).Perm
      (((recordings steps).filter (·.2 = s)).map Prod.fst) :=
  ((perm_entries_follow_empty h).filter _).map _

end Results

end LayoutCheck
