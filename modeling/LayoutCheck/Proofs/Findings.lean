import LayoutCheck.Proofs.Recording
import LayoutCheck.Proofs.WellFormed
import Mathlib.Data.List.Nodup

/-!
The comparison with lists of names in place of joined paths.

`findings` walks a declared tree and what was observed in its place. The steps of a comparison
record exactly these findings, each at the path that joins its names (`recordings_compareSteps`).
In trees without equal siblings no list of names is found twice (`nodup_findings`), and a finding
is what `statusAt` looks up in the two trees (`mem_findings`).
-/

namespace LayoutCheck

/-- The status of an entry, and the names that lead to it from a root. -/
structure Finding where
  names : List String
  status : Status
  deriving DecidableEq, Repr

namespace Finding

/-- The finding as seen from one level above, where the entry's root has that name. -/
def under (name : String) (f : Finding) : Finding := ⟨name :: f.names, f.status⟩

def entry (root : String) (f : Finding) : String × Status := (joinNames root f.names, f.status)

@[simp] theorem entry_under (root name : String) (f : Finding) :
    (f.under name).entry root = f.entry (joinPath root name) := rfl

end Finding

/-- The status of a declared entry itself, by what was observed in its place. -/
def verdict (declared : Tree) : Option Tree → Status
  | none => .missing
  | some a => if declared.kind = a.kind then .compliant else .typeMismatch

theorem verdict_ne_extra (declared : Tree) (actual : Option Tree) :
    verdict declared actual ≠ .extra := by
  unfold verdict
  split
  · decide
  · split <;> decide

theorem verdict_eq_missing {declared : Tree} {actual : Option Tree} :
    verdict declared actual = .missing ↔ actual = none := by
  cases actual with
  | none => simp [verdict]
  | some a => by_cases h : declared.kind = a.kind <;> simp [verdict, h]

def observed? (actual : Option Tree) (name : String) : Option Tree := actual.bind (·.child? name)

@[simp] theorem observed?_none (n : String) : observed? none n = none := rfl

@[simp] theorem observed?_some (a : Tree) (n : String) : observed? (some a) n = a.child? n := rfl

theorem name_of_observed? {actual : Option Tree} {o : Tree} {n : String}
    (h : observed? actual n = some o) : o.name = n := by
  cases actual with
  | none => simp at h
  | some a => exact Tree.name_of_child? h

theorem all_of_observed? {P : Tree → Prop} {actual : Option Tree} (h : ∀ a ∈ actual, a.All P)
    (n : String) : ∀ o ∈ observed? actual n, o.All P := by
  intro o ho
  cases actual with
  | none => simp at ho
  | some a => exact (h a rfl).child? ho

def extraFindings (declared : List Tree) : Option Tree → List Finding
  | none => []
  | some a =>
    (a.childNames.filter (fun n => !declared.any (·.name = n))).map (fun n => ⟨[n], .extra⟩)

mutual

def findingsBelow (actual : Option Tree) : Tree → List Finding
  | .file .. => []
  | .directory n d cs =>
    if verdict (.directory n d cs) actual = .typeMismatch then []
    else findingsAmong actual cs ++ extraFindings cs actual

/-- What is found for declared entries, as seen from their directory. -/
def findingsAmong (actual : Option Tree) : List Tree → List Finding
  | [] => []
  | c :: cs =>
    let there := observed? actual c.name
    (findingsBelow there c ++ [Finding.mk [] (verdict c there)]).map (.under c.name) ++
      findingsAmong actual cs

end

/-- What is found for a declared tree: what is below the root comes before the root itself. -/
def findings (actual : Option Tree) (declared : Tree) : List Finding :=
  findingsBelow actual declared ++ [⟨[], verdict declared actual⟩]

theorem findingsAmong_cons (actual : Option Tree) (c : Tree) (cs : List Tree) :
    findingsAmong actual (c :: cs) =
      (findings (observed? actual c.name) c).map (.under c.name) ++ findingsAmong actual cs := by
  rw [findingsAmong, findings]

/-- Of entries of different kinds only the roots are looked at. -/
theorem findings_of_kind_ne {declared a : Tree} (h : declared.kind ≠ a.kind) :
    findings (some a) declared = [⟨[], .typeMismatch⟩] := by
  cases declared <;> simp_all [findings, findingsBelow, verdict]

/-! ## The steps record the findings -/

theorem recordings_missingBelow {cs : List Tree}
    (h : ∀ c ∈ cs, ∀ path,
      recordings (missingSteps path c) = (findings none c).map (Finding.entry path))
    (path : String) :
    recordings (missingBelow path cs) = (findingsAmong none cs).map (Finding.entry path) := by
  induction cs with
  | nil => simp [missingBelow, findingsAmong]
  | cons c cs ih =>
    have hc := h c (List.mem_cons_self ..) (joinPath path c.name)
    have hcs := ih (fun d hd => h d (List.mem_cons_of_mem c hd))
    rw [missingBelow, recordings_append, hc, hcs, findingsAmong_cons]
    simp [Function.comp_def]

theorem recordings_missingSteps (path : String) (t : Tree) :
    recordings (missingSteps path t) = (findings none t).map (Finding.entry path) := by
  induction t using Tree.induction generalizing path with
  | file n d => simp [missingSteps, findings, findingsBelow, verdict, Finding.entry]
  | directory n d cs ih =>
    have hcs := recordings_missingBelow (fun c hc p => ih c hc p) path
    simp [missingSteps, hcs, findings, findingsBelow, extraFindings, verdict, Finding.entry]

theorem recordings_extraSteps (path : String) (cs : List Tree) (a : Tree) :
    recordings (extraSteps path cs a) = (extraFindings cs (some a)).map (Finding.entry path) := by
  unfold extraSteps extraFindings recordings
  rw [List.filterMap_map, List.map_map, ← List.filterMap_eq_map]
  rfl

theorem recordings_compareBelow {cs : List Tree}
    (h : ∀ c ∈ cs, ∀ above actual, recordings (compareSteps above actual c) =
      (findings actual c).map (Finding.entry (joinPath above c.name)))
    (path : String) (a : Tree) :
    recordings (compareBelow path a cs) = (findingsAmong (some a) cs).map (Finding.entry path) := by
  induction cs with
  | nil => simp [compareBelow, findingsAmong]
  | cons c cs ih =>
    have hc := h c (List.mem_cons_self ..) path (a.child? c.name)
    have hcs := ih (fun d hd => h d (List.mem_cons_of_mem c hd))
    rw [compareBelow, recordings_append, hc, hcs, findingsAmong_cons]
    simp [Function.comp_def]

/-- A comparison records the findings, each at its joined path. -/
theorem recordings_compareSteps (above : String) (actual : Option Tree) (t : Tree) :
    recordings (compareSteps above actual t) =
      (findings actual t).map (Finding.entry (joinPath above t.name)) := by
  induction t using Tree.induction generalizing above actual with
  | file n d =>
    cases actual with
    | none => simpa [compareSteps] using recordings_missingSteps (joinPath above n) (.file n d)
    | some a =>
      cases hk : a.kind <;>
        simp [compareSteps, hk, mismatchSteps, findings, findingsBelow, verdict, Finding.entry]
  | directory n d cs ih =>
    cases actual with
    | none =>
      simpa [compareSteps] using recordings_missingSteps (joinPath above n) (.directory n d cs)
    | some a =>
      have hcs := recordings_compareBelow (fun c hc p o => ih c hc p o) (joinPath above n) a
      cases hk : a.kind <;>
        simp [compareSteps, hk, mismatchSteps, findings, findingsBelow, verdict, Finding.entry,
          hcs, recordings_extraSteps]

/-! ## What is found where -/

/-- The status that the two trees give to the entry that the names lead to. -/
def statusAt : (declared actual : Option Tree) → (names : List String) → Option Status
  | none, none, _ => none
  | none, some _, [] => some .extra
  | none, some _, _ :: _ => none
  | some e, a, [] => some (verdict e a)
  | some e, a, n :: ns =>
    if verdict e a = .typeMismatch then none else statusAt (e.child? n) (observed? a n) ns

@[simp] theorem statusAt_none_none (ns : List String) : statusAt none none ns = none := by
  cases ns <;> rfl

@[simp] theorem statusAt_nil (e : Tree) (a : Option Tree) :
    statusAt (some e) a [] = some (verdict e a) := by
  cases a <;> rfl

theorem statusAt_cons (e : Tree) (a : Option Tree) (n : String) (ns : List String) :
    statusAt (some e) a (n :: ns) =
      if verdict e a = .typeMismatch then none else statusAt (e.child? n) (observed? a n) ns := by
  cases a <;> rfl

theorem statusAt_none_eq_some {a : Option Tree} {ns : List String} {s : Status} :
    statusAt none a ns = some s ↔ ns = [] ∧ s = .extra ∧ a.isSome := by
  cases a <;> cases ns <;> simp [statusAt, eq_comm]

/-- The status that names lead to is that of the two entries by themselves. -/
theorem statusAt_resolve? {declared actual : Option Tree} {ns : List String} {s : Status}
    (h : statusAt declared actual ns = some s) :
    statusAt (declared.bind (·.resolve? ns)) (actual.bind (·.resolve? ns)) [] = some s := by
  induction ns generalizing declared actual with
  | nil => cases declared <;> cases actual <;> exact h
  | cons n ns ih =>
    cases declared with
    | none => simp [statusAt_none_eq_some] at h
    | some e =>
      rw [statusAt_cons] at h
      split at h
      · simp at h
      · have hbelow := ih h
        cases actual <;> exact hbelow

/-- Beyond names that lead to a status, the two entries there decide. -/
theorem statusAt_append {declared actual : Option Tree} {ns ms : List String}
    (h : (statusAt declared actual ns).isSome) : statusAt declared actual (ns ++ ms) =
      statusAt (declared.bind (·.resolve? ns)) (actual.bind (·.resolve? ns)) ms := by
  induction ns generalizing declared actual with
  | nil => cases declared <;> cases actual <;> rfl
  | cons n ns ih =>
    cases declared with
    | none => cases actual <;> simp [statusAt] at h
    | some e =>
      rw [statusAt_cons] at h
      rw [List.cons_append, statusAt_cons]
      split at h
      · simp at h
      · rename_i hv
        rw [if_neg hv, ih h]
        cases actual <;> rfl

/-- A status but extra belongs to a declared entry, a status but missing to an observed one. -/
theorem isSome_resolve?_of_statusAt {declared actual : Option Tree} {ns : List String} {s : Status}
    (h : statusAt declared actual ns = some s) :
    ((declared.bind (·.resolve? ns)).isSome ↔ s ≠ .extra) ∧
      ((actual.bind (·.resolve? ns)).isSome ↔ s ≠ .missing) := by
  have hentries := statusAt_resolve? h
  cases hd : declared.bind (·.resolve? ns) with
  | none =>
    rw [hd] at hentries
    obtain ⟨_, rfl, ha⟩ := statusAt_none_eq_some.mp hentries
    simp [ha]
  | some d =>
    rw [hd, statusAt_nil, Option.some.injEq] at hentries
    subst hentries
    simp [verdict_ne_extra, verdict_eq_missing, Option.isSome_iff_ne_none]

theorem mem_findingsAmong {actual : Option Tree} {cs : List Tree} {f : Finding} :
    f ∈ findingsAmong actual cs ↔
      ∃ c ∈ cs, ∃ g ∈ findings (observed? actual c.name) c, g.under c.name = f := by
  induction cs with
  | nil => simp [findingsAmong]
  | cons c cs ih => simp [findingsAmong_cons, ih]

theorem mem_extraFindings {actual : Option Tree} {cs : List Tree} {f : Finding} :
    f ∈ extraFindings cs actual ↔
      ∃ n, f = ⟨[n], .extra⟩ ∧ (∀ c ∈ cs, c.name ≠ n) ∧ (observed? actual n).isSome := by
  cases actual with
  | none => simp [extraFindings]
  | some a =>
    simp only [extraFindings, List.mem_map, List.mem_filter, observed?_some, Tree.isSome_child?]
    constructor
    · rintro ⟨n, ⟨hn, hc⟩, rfl⟩
      exact ⟨n, rfl, by simpa using hc, hn⟩
    · rintro ⟨n, rfl, hc, hn⟩
      exact ⟨n, ⟨hn, by simpa using hc⟩, rfl⟩

theorem mem_extraFindings_cons {actual : Option Tree} {cs : List Tree} {n : String}
    {ns : List String} {s : Status} :
    ⟨n :: ns, s⟩ ∈ extraFindings cs actual ↔
      ns = [] ∧ s = .extra ∧ (∀ c ∈ cs, c.name ≠ n) ∧ (observed? actual n).isSome := by
  rw [mem_extraFindings]
  constructor
  · rintro ⟨m, he, hm⟩
    obtain ⟨⟨rfl, rfl⟩, rfl⟩ : (n = m ∧ ns = []) ∧ s = .extra := by simpa using he
    exact ⟨rfl, rfl, hm⟩
  · rintro ⟨rfl, rfl, hn⟩
    exact ⟨n, rfl, hn⟩

theorem names_ne_nil_of_mem_findingsBelow {actual : Option Tree} {t : Tree} {f : Finding}
    (h : f ∈ findingsBelow actual t) : f.names ≠ [] := by
  cases t with
  | file n d => simp [findingsBelow] at h
  | directory n d cs =>
    simp only [findingsBelow] at h
    split at h
    · simp at h
    · rcases List.mem_append.mp h with h | h
      · obtain ⟨c, _, g, _, rfl⟩ := mem_findingsAmong.mp h
        simp [Finding.under]
      · obtain ⟨n, rfl, _⟩ := mem_extraFindings.mp h
        simp

theorem mem_findings_nil {actual : Option Tree} {t : Tree} {s : Status} :
    ⟨[], s⟩ ∈ findings actual t ↔ s = verdict t actual := by
  simp only [findings, List.mem_append, List.mem_singleton, Finding.mk.injEq, true_and]
  constructor
  · rintro (h | h)
    · exact absurd rfl (names_ne_nil_of_mem_findingsBelow h)
    · exact h
  · exact .inr

theorem mem_findings_cons {actual : Option Tree} {t : Tree} {n : String} {ns : List String}
    {s : Status} : ⟨n :: ns, s⟩ ∈ findings actual t ↔ ⟨n :: ns, s⟩ ∈ findingsBelow actual t := by
  simp [findings]

/-- In a directory with distinct names the findings under a name are those of the declared entry. -/
theorem mem_findingsAmong_cons {actual : Option Tree} {cs : List Tree} {n : String}
    {ns : List String} {s : Status} (hcs : (cs.map Tree.name).Nodup) :
    ⟨n :: ns, s⟩ ∈ findingsAmong actual cs ↔
      ∃ c, cs.find? (·.name = n) = some c ∧ ⟨ns, s⟩ ∈ findings (observed? actual n) c := by
  rw [mem_findingsAmong]
  constructor
  · rintro ⟨c, hc, ⟨ms, u⟩, hg, he⟩
    obtain ⟨⟨rfl, rfl⟩, rfl⟩ : (c.name = n ∧ ms = ns) ∧ u = s := by simpa [Finding.under] using he
    exact ⟨c, Tree.find?_of_nodup hcs hc, hg⟩
  · rintro ⟨c, hf, hg⟩
    obtain rfl : c.name = n := by simpa using List.find?_some hf
    exact ⟨c, List.mem_of_find?_eq_some hf, ⟨ns, s⟩, hg, rfl⟩

/-- The findings are what the two trees say about each list of names. -/
theorem mem_findings {actual : Option Tree} {t : Tree} {ns : List String} {s : Status}
    (h : t.Distinct) : ⟨ns, s⟩ ∈ findings actual t ↔ statusAt (some t) actual ns = some s := by
  induction t using Tree.induction generalizing actual ns with
  | file m d =>
    cases ns with
    | nil => rw [mem_findings_nil, statusAt_nil, Option.some.injEq, eq_comm]
    | cons n ns =>
      have hnone : ∀ a, verdict (.file m d) a ≠ .typeMismatch → observed? a n = none := by
        rintro (_ | _ | _) hv
        · rfl
        · rfl
        · exact absurd rfl hv
      rw [mem_findings_cons, statusAt_cons, Tree.child?_file]
      split
      · simp [findingsBelow]
      · simp [findingsBelow, hnone actual ‹_›]
  | directory m d cs ih =>
    cases ns with
    | nil => rw [mem_findings_nil, statusAt_nil, Option.some.injEq, eq_comm]
    | cons n ns =>
      obtain ⟨_, hcs, hd⟩ := Tree.namedBy_directory.mp h
      rw [mem_findings_cons, findingsBelow, statusAt_cons]
      split
      · simp
      · rw [List.mem_append, mem_findingsAmong_cons hcs, mem_extraFindings_cons]
        cases hf : cs.find? (·.name = n) with
        | none =>
          have hne : ∀ c ∈ cs, c.name ≠ n := by simpa using hf
          have hchild : (Tree.directory m d cs).child? n = none := hf
          rw [hchild, statusAt_none_eq_some]
          simpa using fun _ _ _ => hne
        | some c =>
          have hmem : c ∈ cs := List.mem_of_find?_eq_some hf
          have hname : c.name = n := by simpa using List.find?_some hf
          have hchild : (Tree.directory m d cs).child? n = some c := hf
          rw [hchild, ← ih c hmem (hd c hmem)]
          simpa using fun _ _ hne => absurd hname (hne c hmem)

/-- Only names that occur in one of the two trees lead to a status. -/
theorem valid_of_statusAt {valid : String → Prop} {declared actual : Option Tree}
    {ns : List String} {s : Status} (hd : ∀ t ∈ declared, t.NamedBy valid)
    (ha : ∀ t ∈ actual, t.NamedBy valid) (h : statusAt declared actual ns = some s) :
    ∀ n ∈ ns, valid n := by
  induction ns generalizing declared actual with
  | nil => simp
  | cons n ns ih =>
    cases declared with
    | none => simp [statusAt_none_eq_some] at h
    | some e =>
      rw [statusAt_cons] at h
      split at h
      · simp at h
      · have hchild : ∀ t ∈ observed? (some e) n, t.NamedBy valid := all_of_observed? hd n
        have hobs : ∀ t ∈ observed? actual n, t.NamedBy valid := all_of_observed? ha n
        have hn : valid n := by
          cases hc : e.child? n with
          | some c => exact Tree.name_of_child? hc ▸ (Tree.All.here (hchild c hc)).1
          | none =>
            cases ho : observed? actual n with
            | some o => exact name_of_observed? ho ▸ (Tree.All.here (hobs o ho)).1
            | none => simp [hc, ho] at h
        exact List.forall_mem_cons.mpr ⟨hn, ih hchild hobs h⟩

/-! ## Nothing is found twice -/

theorem map_names_under (n : String) (fs : List Finding) :
    (fs.map (Finding.under n)).map Finding.names = (fs.map Finding.names).map (n :: ·) := by
  simp [Function.comp_def, Finding.under]

theorem nodup_extraFindings {actual : Option Tree} (h : ∀ a ∈ actual, a.Distinct)
    (cs : List Tree) : ((extraFindings cs actual).map Finding.names).Nodup := by
  cases actual with
  | none => exact .nil
  | some a =>
    rw [extraFindings, List.map_map]
    exact ((h a rfl).nodup.filter _).map (fun m n hmn => by simpa using hmn)

theorem nodup_findingsAmong {actual : Option Tree} {cs : List Tree}
    (hcs : (cs.map Tree.name).Nodup)
    (h : ∀ c ∈ cs, ((findings (observed? actual c.name) c).map Finding.names).Nodup) :
    ((findingsAmong actual cs).map Finding.names).Nodup := by
  induction cs with
  | nil => simp [findingsAmong]
  | cons c cs ih =>
    obtain ⟨hc, hnodup⟩ := List.nodup_cons.mp hcs
    have hfirst := (h c (List.mem_cons_self ..)).map (List.cons_injective (a := c.name))
    have hrest := ih hnodup (fun d hd => h d (List.mem_cons_of_mem c hd))
    rw [findingsAmong_cons, List.map_append, map_names_under]
    refine List.nodup_append.mpr ⟨hfirst, hrest, ?_⟩
    rintro _ hx _ hy rfl
    obtain ⟨ns, _, rfl⟩ := List.mem_map.mp hx
    obtain ⟨f, hf, hfe⟩ := List.mem_map.mp hy
    obtain ⟨d, hd, g, _, rfl⟩ := mem_findingsAmong.mp hf
    have hname : d.name = c.name := (List.cons.inj hfe).1
    exact hc (hname ▸ List.mem_map_of_mem hd)

theorem nodup_findings {actual : Option Tree} {t : Tree} (h : t.Distinct)
    (ha : ∀ a ∈ actual, a.Distinct) : ((findings actual t).map Finding.names).Nodup := by
  induction t using Tree.induction generalizing actual with
  | file n d => simp [findings, findingsBelow]
  | directory n d cs ih =>
    obtain ⟨_, hcs, hd⟩ := Tree.namedBy_directory.mp h
    have hamong : ((findingsAmong actual cs).map Finding.names).Nodup :=
      nodup_findingsAmong hcs (fun c hc => ih c hc (hd c hc) (all_of_observed? ha c.name))
    have hbelow : ((findingsBelow actual (.directory n d cs)).map Finding.names).Nodup := by
      rw [findingsBelow]
      split
      · exact .nil
      · rw [List.map_append]
        refine List.nodup_append.mpr ⟨hamong, nodup_extraFindings ha cs, ?_⟩
        rintro _ hx _ hy rfl
        obtain ⟨f, hf, rfl⟩ := List.mem_map.mp hx
        obtain ⟨e, he, hef⟩ := List.mem_map.mp hy
        obtain ⟨c, hc, g, _, rfl⟩ := mem_findingsAmong.mp hf
        obtain ⟨m, rfl, hne, _⟩ := mem_extraFindings.mp he
        exact hne c hc (List.cons.inj hef).1.symm
    rw [findings, List.map_append]
    refine List.nodup_append.mpr ⟨hbelow, by simp, ?_⟩
    rintro _ hx _ hy rfl
    obtain ⟨f, hf, rfl⟩ := List.mem_map.mp hx
    exact names_ne_nil_of_mem_findingsBelow hf (by simpa using hy)

end LayoutCheck
