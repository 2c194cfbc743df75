import LayoutCheck.FileSystem.Write

/-!
What is at each place of a file system.

`labelAt?` gives an entry by itself, without what a directory lists. Writing a file changes this at
its own place and nowhere else (`labelAt?_putAt`). A walk goes down in the tree (`Trail.Within`), so
what it comes to is what is at its place (`Trail.Within.at?`).
-/

namespace LayoutCheck

inductive Label where
  | file (content : ByteArray)
  | link (target : String)
  | directory

namespace Entry

variable {root e : Entry} {entries : List (String × Entry)} {name n : String} {place p : Place}
  {content : ByteArray}

def label : Entry → Label
  | file content => .file content
  | link target => .link target
  | directory _ => .directory

def labelAt? (e : Entry) (p : Place) : Option Label := (e.at? p).map label

theorem label_eq_directory : e.label = .directory ↔ ∃ entries, e = .directory entries := by
  cases e <;> simp [label]

theorem label_eq_link {target : String} : e.label = .link target ↔ e = .link target := by
  cases e <;> simp [label]

theorem label_eq_file : e.label = .file content ↔ e = .file content := by
  cases e <;> simp [label]

@[simp] theorem at?_nil (e : Entry) : e.at? [] = some e := rfl

@[simp] theorem at?_directory_cons (entries : List (String × Entry)) (n : String) (p : Place) :
    (directory entries).at? (n :: p) = (find? entries n).bind (·.at? p) := rfl

theorem at?_append (e : Entry) (p q : Place) : e.at? (p ++ q) = (e.at? p).bind (·.at? q) := by
  induction p generalizing e with
  | nil => rfl
  | cons n p ih =>
    cases e with
    | file | link => rfl
    | directory entries =>
      rw [List.cons_append, at?_directory_cons, at?_directory_cons]
      cases find? entries n with
      | none => rfl
      | some d => exact ih d

/-! ## Writing a file -/

theorem find?_cons (d : String × Entry) (ds : List (String × Entry)) (n : String) :
    find? (d :: ds) n = if d.1 = n then some d.2 else find? ds n := by
  by_cases h : d.1 = n <;> simp [find?, h]

theorem find?_put (name : String) (e : Entry) (entries : List (String × Entry)) (n : String) :
    find? (put name e entries) n = if n = name then some e else find? entries n := by
  induction entries with
  | nil => simp [put, find?_cons, eq_comm]
  | cons d ds ih =>
    by_cases hd : d.1 = name
    · by_cases hn : n = name
      · simp [put, find?_cons, hd, hn]
      · simp [put, find?_cons, hd, hn, Ne.symm hn]
    · by_cases hn : d.1 = n
      · have hne : n ≠ name := hn ▸ hd
        simp [put, find?_cons, hn, hne]
      · simp [put, find?_cons, hd, hn, ih]

/-- An operation on the entries of one name is one on what is found under that name. -/
theorem find?_map_named (f : Entry → Entry) (entries : List (String × Entry)) (m n : String) :
    find? (entries.map fun d => if d.1 = m then (m, f d.2) else d) n =
      if n = m then (find? entries m).map f else find? entries n := by
  induction entries with
  | nil => simp [find?]
  | cons d ds ih =>
    rw [List.map_cons, find?_cons, find?_cons, find?_cons, ih]
    by_cases hd : d.1 = m
    · by_cases hn : n = m
      · simp [hd, hn]
      · simp [hd, hn, Ne.symm hn]
    · by_cases hn : d.1 = n
      · have hne : n ≠ m := hn ▸ hd
        simp [hn, hne]
      · simp [hd, hn]

/-- Nothing but a file is there. -/
def Free (entries : List (String × Entry)) (name : String) : Prop :=
  ∀ e, find? entries name = some e → ∃ content, e = .file content

/-- A file that is written is at its place, and every other place is what it was. -/
theorem labelAt?_putAt (hdir : root.at? place = some (.directory entries))
    (hfree : Free entries name) (p : Place) :
    (root.putAt place name (.file content)).labelAt? p =
      if p = place ++ [name] then some (.file content) else root.labelAt? p := by
  induction place generalizing root p with
  | nil =>
    obtain rfl : root = .directory entries := Option.some.inj hdir
    cases p with
    | nil => rfl
    | cons n q =>
      rw [putAt, labelAt?, labelAt?, at?_directory_cons, at?_directory_cons, find?_put]
      by_cases hn : n = name
      · subst hn
        cases q with
        | nil => simp [label]
        | cons m q =>
          cases hfind : find? entries n with
          | none => simp [at?]
          | some e =>
            obtain ⟨old, rfl⟩ := hfree e hfind
            simp [at?]
      · simp [hn]
  | cons m place ih =>
    cases root with
    | file | link => simp [at?] at hdir
    | directory es =>
      rw [at?_directory_cons] at hdir
      obtain ⟨d, hd, hbelow⟩ := Option.bind_eq_some_iff.mp hdir
      cases p with
      | nil => rfl
      | cons n q =>
        rw [putAt, labelAt?, labelAt?, at?_directory_cons, at?_directory_cons,
          find?_map_named (·.putAt place name (.file content))]
        by_cases hn : n = m
        · subst hn
          have hq := ih hbelow q
          simp only [labelAt?] at hq
          simp [hd, hq]
        · simp [hn]

end Entry

/-! ## Walks in the tree -/

namespace Trail

variable {root e : Entry} {t u : Trail} {n : String} {entries : List (String × Entry)}

/-- Each place on the trail is listed by the directory before it. -/
inductive Within (root : Entry) : Trail → Prop where
  | nil : Within root []
  | down {t : Trail} {n : String} {e : Entry} {entries : List (String × Entry)} :
      Within root t → t.entry root = .directory entries → Entry.find? entries n = some e →
      Within root (t.down n e)

@[simp] theorem place_nil : place [] = [] := rfl

@[simp] theorem place_down (t : Trail) (n : String) (e : Entry) :
    (t.down n e).place = t.place ++ [n] := by
  simp [place, down]

theorem place_tail (t : Trail) : place t.tail = t.place.dropLast := by
  cases t <;> simp [place]

theorem Within.tail (h : t.Within root) : Within root t.tail := by
  cases h with
  | nil => exact .nil
  | down ht _ _ => exact ht

/-- What a walk has come to is at its place. -/
theorem Within.at? (h : t.Within root) : root.at? t.place = some (t.entry root) := by
  induction h with
  | nil => rfl
  | down _ hdir hfind ih =>
    rw [place_down, Entry.at?_append, ih, Option.bind_some, hdir, Entry.at?_directory_cons, hfind]
    rfl

theorem Within.labelAt? (h : t.Within root) :
    root.labelAt? t.place = some (t.entry root).label := by
  rw [Entry.labelAt?, h.at?, Option.map_some]

theorem Within.labelAt?_below (h : t.Within root) (hdir : t.entry root = .directory entries)
    (n : String) : root.labelAt? (t.place ++ [n]) = (Entry.find? entries n).map Entry.label := by
  rw [Entry.labelAt?, Entry.at?_append, h.at?, Option.bind_some, hdir, Entry.at?_directory_cons]
  cases Entry.find? entries n <;> rfl

/-- A trail goes on to whatever is at a place below. -/
theorem Within.exists_extend? (h : t.Within root) {p : Place}
    (hp : ((t.entry root).at? p).isSome) :
    ∃ u, extend? root t p = some u ∧ u.Within root ∧ u.place = t.place ++ p := by
  induction p generalizing t with
  | nil => exact ⟨t, rfl, h, by simp⟩
  | cons n p ih =>
    cases hentry : t.entry root with
    | file | link => simp [hentry, Entry.at?] at hp
    | directory entries =>
      rw [hentry, Entry.at?_directory_cons] at hp
      cases hfind : Entry.find? entries n with
      | none => simp [hfind] at hp
      | some e =>
        rw [hfind, Option.bind_some] at hp
        obtain ⟨u, hu, hwithin, hplace⟩ := ih (h.down hentry hfind) hp
        refine ⟨u, ?_, hwithin, by simp [hplace]⟩
        simp only [extend?, hentry, hfind, Option.bind_some]
        exact hu

theorem isSome_at?_of_extend? {p : Place} (hu : extend? root t p = some u) :
    ((t.entry root).at? p).isSome := by
  induction p generalizing t with
  | nil => rfl
  | cons n p ih =>
    simp only [extend?] at hu
    cases hentry : t.entry root with
    | file | link => simp [hentry] at hu
    | directory entries =>
      rw [hentry] at hu
      obtain ⟨e, hfind, hu⟩ := Option.bind_eq_some_iff.mp hu
      rw [Entry.at?_directory_cons, hfind]
      exact ih hu

end Trail

end LayoutCheck
