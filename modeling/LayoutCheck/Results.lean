import LayoutCheck.Log
import LayoutCheck.Status

/-!
The statuses recorded for paths.

`Results` holds its paths in ascending order, each once. `record` keeps the first status that a path
was given (`find?_record`) and logs an error for every later one. Two results that agree on every
path are equal (`ext_find?`).
-/

namespace LayoutCheck

/-- A status for each of finitely many paths, in ascending order of the paths. -/
structure Results where
  entries : List (String × Status)
  ascending : entries.Pairwise (fun a b => a.1 < b.1)
  deriving DecidableEq

namespace Results

def empty : Results := ⟨[], .nil⟩

def size (r : Results) : Nat := r.entries.length

def paths (r : Results) : List String := r.entries.map (·.1)

/-- The status of the path among the entries. -/
def lookup (path : String) (es : List (String × Status)) : Option Status :=
  (es.find? (·.1 = path)).map (·.2)

/-- The status recorded for the path. -/
def find? (r : Results) (path : String) : Option Status := lookup path r.entries

/-- The paths of that status, in ascending order. -/
def pathsWith (r : Results) (status : Status) : List String :=
  (r.entries.filter (·.2 = status)).map (·.1)

/-- Inserts into ascending entries, unless the path is there already. -/
def insertEntry (path : String) (status : Status) :
    List (String × Status) → List (String × Status)
  | [] => [(path, status)]
  | e :: es =>
    if path < e.1 then (path, status) :: e :: es
    else if path = e.1 then e :: es
    else e :: insertEntry path status es

theorem mem_insertEntry {path : String} {status : Status} {es : List (String × Status)}
    {e : String × Status} (h : e ∈ insertEntry path status es) : e = (path, status) ∨ e ∈ es := by
  induction es with
  | nil => simpa [insertEntry] using h
  | cons d ds ih =>
    simp only [insertEntry] at h
    split at h
    · simpa using h
    · split at h
      · exact .inr h
      · rcases List.mem_cons.1 h with rfl | h
        · simp
        · exact (ih h).imp_right (List.mem_cons_of_mem d)

theorem ascending_insertEntry (path : String) (status : Status) {es : List (String × Status)}
    (h : es.Pairwise (fun a b => a.1 < b.1)) :
    (insertEntry path status es).Pairwise (fun a b => a.1 < b.1) := by
  induction es with
  | nil => simp [insertEntry]
  | cons d ds ih =>
    obtain ⟨hd, hds⟩ := List.pairwise_cons.1 h
    simp only [insertEntry]
    split
    · rename_i hlt
      refine List.pairwise_cons.2 ⟨fun e he => ?_, h⟩
      rcases List.mem_cons.1 he with rfl | he
      · exact hlt
      · exact String.lt_trans hlt (hd e he)
    · rename_i hlt
      split
      · exact h
      · rename_i hne
        refine List.pairwise_cons.2 ⟨fun e he => ?_, ih hds⟩
        rcases mem_insertEntry he with rfl | he
        · exact Std.lt_of_le_of_ne (Std.not_lt.1 hlt) (Ne.symm hne)
        · exact hd e he

/-- Gives the path a status unless it has one. -/
def insert (r : Results) (path : String) (status : Status) : Results :=
  ⟨insertEntry path status r.entries, ascending_insertEntry path status r.ascending⟩

/-- Records a status; a path that has one keeps it, and the attempt is logged as an error. -/
def record (r : Results) (path : String) (status : Status) : Logged Results :=
  match r.find? path with
  | none => pure (r.insert path status)
  | some old => do
    Log.error s!"Path '{path}' already recorded as {old.text}, ignoring {status.text}"
    return r

/-- Records statuses one after the other. -/
def recordAll (r : Results) : List (String × Status) → Logged Results
  | [] => pure r
  | (path, status) :: es => do
    let r ← r.record path status
    r.recordAll es

/-- The results of recording the statuses from nothing. -/
def ofList (es : List (String × Status)) : Logged Results := empty.recordAll es

theorem lookup_insertEntry (path : String) (status : Status) {es : List (String × Status)}
    (h : es.Pairwise (fun a b => a.1 < b.1)) (p : String) :
    lookup p (insertEntry path status es) =
      (lookup p es).or (if p = path then some status else none) := by
  induction es with
  | nil => by_cases hp : path = p <;> simp [insertEntry, lookup, hp, eq_comm]
  | cons d ds ih =>
    obtain ⟨hd, hds⟩ := List.pairwise_cons.1 h
    simp only [insertEntry]
    split
    · rename_i hlt
      by_cases hp : p = path
      · subst hp
        have hnot : lookup p (d :: ds) = none := by
          simp only [lookup, Option.map_eq_none_iff, List.find?_eq_none, List.mem_cons,
            decide_eq_true_eq]
          rintro e (rfl | he) rfl
          · exact String.lt_irrefl _ hlt
          · exact String.lt_irrefl _ (String.lt_trans hlt (hd e he))
        rw [hnot]
        simp [lookup]
      · simp [lookup, hp, Ne.symm hp]
    · split
      · rename_i he
        by_cases hp : p = path
        · simp [lookup, hp, he]
        · simp [hp]
      · rename_i hne
        by_cases hp : d.1 = p
        · simp [lookup, hp]
        · have := ih hds
          simp only [lookup] at this
          simp [lookup, hp, this]

/-- A path keeps the first status that it is given. -/
theorem find?_insert (r : Results) (path : String) (status : Status) (p : String) :
    (r.insert path status).find? p =
      (r.find? p).or (if p = path then some status else none) :=
  lookup_insertEntry path status r.ascending p

theorem find?_record (r : Results) (path : String) (status : Status) (p : String) :
    (r.record path status).value.find? p =
      (r.find? p).or (if p = path then some status else none) := by
  unfold record
  split
  · exact find?_insert r path status p
  · rename_i old hold
    by_cases hp : p = path
    · subst hp; simp [hold]
    · simp [hp]

theorem lookup_eq_none_of_lt {p : String} {es : List (String × Status)}
    (h : ∀ e ∈ es, p < e.1) : lookup p es = none := by
  simp only [lookup, Option.map_eq_none_iff, List.find?_eq_none, decide_eq_true_eq]
  rintro e he rfl
  exact String.lt_irrefl _ (h e he)

theorem lookup_cons_self (p : String) (s : Status) (es : List (String × Status)) :
    lookup p ((p, s) :: es) = some s := by
  simp [lookup]

theorem lookup_cons_of_ne {p : String} {e : String × Status} (h : p ≠ e.1)
    (es : List (String × Status)) : lookup p (e :: es) = lookup p es := by
  simp [lookup, Ne.symm h]

/-- Ascending entries are determined by what they say about each path. -/
theorem eq_of_lookup_eq {es ds : List (String × Status)}
    (hes : es.Pairwise (fun a b => a.1 < b.1)) (hds : ds.Pairwise (fun a b => a.1 < b.1))
    (h : ∀ p, lookup p es = lookup p ds) : es = ds := by
  induction es generalizing ds with
  | nil =>
    cases ds with
    | nil => rfl
    | cons d ds => simpa [lookup] using h d.1
  | cons e es ih =>
    cases ds with
    | nil => simpa [lookup] using h e.1
    | cons d ds =>
      obtain ⟨p, s⟩ := e
      obtain ⟨q, t⟩ := d
      obtain ⟨he, tailEs⟩ := List.pairwise_cons.1 hes
      obtain ⟨hd, tailDs⟩ := List.pairwise_cons.1 hds
      have hp := h p
      have hq := h q
      rw [lookup_cons_self] at hp hq
      have order : p < q ∨ p = q ∨ q < p := by
        by_cases h₁ : p < q
        · exact .inl h₁
        · by_cases h₂ : q < p
          · exact .inr (.inr h₂)
          · exact .inr (.inl (String.le_antisymm (Std.not_lt.1 h₂) (Std.not_lt.1 h₁)))
      rcases order with hlt | rfl | hlt
      · rw [lookup_eq_none_of_lt] at hp
        · simp at hp
        · rintro x hx
          rcases List.mem_cons.1 hx with rfl | hx
          · exact hlt
          · exact String.lt_trans hlt (hd x hx)
      · rw [lookup_cons_self] at hp
        obtain rfl : s = t := by simpa using hp
        rw [ih tailEs tailDs]
        intro r
        by_cases hr : r = p
        · subst hr
          rw [lookup_eq_none_of_lt he, lookup_eq_none_of_lt hd]
        · simpa [lookup_cons_of_ne, hr] using h r
      · rw [lookup_eq_none_of_lt] at hq
        · simp at hq
        · rintro x hx
          rcases List.mem_cons.1 hx with rfl | hx
          · exact hlt
          · exact String.lt_trans hlt (he x hx)

/-- Results that agree on every path are equal. -/
theorem ext_find? {r s : Results} (h : ∀ p, r.find? p = s.find? p) : r = s := by
  have := eq_of_lookup_eq r.ascending s.ascending h
  cases r
  cases s
  simpa using this

end Results

end LayoutCheck
