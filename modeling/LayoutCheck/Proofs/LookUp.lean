import LayoutCheck.FileSystem.Surroundings
import LayoutCheck.Proofs.Declared

/-!
Looking up what a directory lists.

The path of an entry below a path goes on with one step down (`ofString_childPath`), and a walk
along it goes on from where the walk along the path ends (`follow_append`). So the system finds
below a directory what the directory lists (`lookUp_childPath`), at a place below that of the
directory (`exists_resolve_of_childPath`).
-/

namespace LayoutCheck

/-! ## The steps of a path -/

namespace Pathname

theorem pieces_ne_nil (cs : List Char) : pieces cs ≠ [] := by
  cases cs with
  | nil => simp [pieces]
  | cons c cs =>
    rw [pieces]
    split
    · simp
    · split <;> simp

theorem pieces_append_slash (cs ds : List Char) :
    pieces (cs ++ '/' :: ds) = pieces cs ++ pieces ds := by
  induction cs with
  | nil => simp [pieces]
  | cons c cs ih =>
    by_cases hc : c = '/'
    · simp [pieces, hc, ih]
    · obtain ⟨p, ps, hp⟩ := List.exists_cons_of_ne_nil (pieces_ne_nil cs)
      simp [pieces, hc, ih, hp]

theorem pieces_of_not_mem {cs : List Char} (h : '/' ∉ cs) : pieces cs = [cs] := by
  induction cs with
  | nil => rfl
  | cons c cs ih =>
    rw [List.mem_cons, not_or] at h
    rw [pieces, if_neg (Ne.symm h.1), ih h.2]

def IsStep (name : String) : Prop :=
  name ≠ "" ∧ name ≠ "." ∧ name ≠ ".." ∧ '/' ∉ name.toList

theorem filterMap_stepOf?_pieces {name : String} (h : IsStep name) :
    (pieces name.toList).filterMap stepOf? = [.down name] := by
  obtain ⟨hempty, hstay, hup, hslash⟩ := h
  have hne : name.toList ≠ [] := by simpa using hempty
  have hdot : name.toList ≠ ['.'] := fun h => hstay (String.toList_injective h)
  have hdots : name.toList ≠ ['.', '.'] := fun h => hup (String.toList_injective h)
  simp [pieces_of_not_mem hslash, stepOf?, hne, hdot, hdots]

/-- The path of an entry ends with its name behind a slash, and begins like the path above. -/
theorem exists_toList_childPath {path : String} (hpath : path ≠ "") (name : String) :
    ∃ cs, (childPath path name).toList = cs ++ '/' :: name.toList ∧
      (pieces cs).filterMap stepOf? = (ofString path).steps ∧
      (cs ++ '/' :: name.toList).head? = path.toList.head? := by
  have hne : path.toList ≠ [] := by simpa using hpath
  unfold childPath
  rw [if_neg hpath]
  split
  · rename_i hlast
    obtain ⟨cs, hcs⟩ := List.getLast?_eq_some_iff.mp hlast
    refine ⟨cs, by simp [hcs], ?_, ?_⟩
    · simp [ofString, hcs, pieces_append_slash, pieces, stepOf?]
    · rw [hcs]
      cases cs <;> rfl
  · refine ⟨path.toList, by simp, rfl, ?_⟩
    obtain ⟨c, cs, hcs⟩ := List.exists_cons_of_ne_nil hne
    simp [hcs]

/-- A step down leads from the path of a directory to that of an entry. -/
theorem ofString_childPath {path name : String} (hpath : path ≠ "") (hname : IsStep name) :
    ofString (childPath path name) =
      ⟨(ofString path).absolute, (ofString path).steps ++ [.down name], false⟩ := by
  obtain ⟨cs, hcs, hsteps, hhead⟩ := exists_toList_childPath hpath name
  have hne : name.toList ≠ [] := by simpa using hname.1
  have hlast : ('/' :: name.toList).getLast? ≠ some '/' := by
    obtain ⟨c, cs, hname'⟩ := List.exists_cons_of_ne_nil hne
    rw [hname', List.getLast?_cons_cons, ← hname']
    exact fun h => hname.2.2.2 (List.mem_of_getLast? h)
  simp [ofString, hcs, hlast, hhead, pieces_append_slash, hsteps, filterMap_stepOf?_pieces hname]

end Pathname

namespace FileSystem

section Steps

variable {root : Entry} {reach : Reach} {links : Nat} {trail t : Trail} {ss : List Pathname.Step}
  {n : String} {entries : List (String × Entry)} {e : Entry}

theorem advance_stay (hdir : trail.entry root = .directory entries) :
    advance root reach trail (.stay :: ss) = advance root reach trail ss := by
  rw [advance, hdir]

theorem advance_up (hdir : trail.entry root = .directory entries) :
    advance root reach trail (.up :: ss) = advance root reach trail.tail ss := by
  rw [advance, hdir]

theorem advance_link {target : String} (hdir : trail.entry root = .directory entries)
    (hfind : Entry.find? entries n = some (.link target)) (hsize : n.utf8ByteSize ≤ maxNameSize)
    (hreach : reach (trail.sizeBelow n)) :
    advance root reach trail (.down n :: ss) = .linked trail target ss := by
  have hin : ¬ (maxNameSize < n.utf8ByteSize || !reach (trail.sizeBelow n)) := by
    simpa [hreach] using hsize
  rw [advance, hdir]
  simp only [if_neg hin, hfind]

theorem advance_down (hdir : trail.entry root = .directory entries)
    (hfind : Entry.find? entries n = some e) (hlink : ∀ target, e ≠ .link target)
    (hsize : n.utf8ByteSize ≤ maxNameSize) (hreach : reach (trail.sizeBelow n)) :
    advance root reach trail (.down n :: ss) = advance root reach (trail.down n e) ss := by
  have hin : ¬ (maxNameSize < n.utf8ByteSize || !reach (trail.sizeBelow n)) := by
    simpa [hreach] using hsize
  rw [advance, hdir]
  simp only [if_neg hin, hfind]

theorem advance_append (ts : List Pathname.Step) :
    advance root reach trail (ss ++ ts) =
      match advance root reach trail ss with
      | .arrived trail => advance root reach trail ts
      | .linked trail target rest => .linked trail target (rest ++ ts)
      | .refused error => .refused error := by
  induction ss generalizing trail with
  | nil => rfl
  | cons s ss ih =>
    rw [List.cons_append, advance, advance]
    split
    · cases s with
      | stay => exact ih
      | up => exact ih
      | down n =>
        simp only
        split
        · rfl
        · split
          · rfl
          · rfl
          · exact ih
    · rfl

theorem size_le_of_not_refused
    (h : ¬ (maxNameSize < n.utf8ByteSize || !reach (trail.sizeBelow n))) :
    n.utf8ByteSize ≤ maxNameSize := by
  simp only [Bool.or_eq_true, not_or] at h
  simpa using h.1

/-- What is reached within limits is also reached without them. -/
theorem advance_anywhere (h : ∀ error, advance root reach trail ss ≠ .refused error) :
    advance root anywhere trail ss = advance root reach trail ss := by
  fun_induction advance root reach trail ss with
  | case1 => rfl
  | case2 trail ss entries hdir ih => rw [advance_stay hdir, ih h]
  | case3 trail ss entries hdir ih => rw [advance_up hdir, ih h]
  | case6 trail ss entries hdir n hin target hfind =>
    exact advance_link hdir hfind (size_le_of_not_refused hin) rfl
  | case7 trail ss entries hdir n hin e hlink hfind ih =>
    rw [advance_down hdir hfind hlink (size_le_of_not_refused hin) rfl, ih h]
  | case4 | case5 | case8 => exact absurd rfl (h _)

/-- Steps begin in directories, and steps down are within reach. -/
theorem of_advance_cons {s : Pathname.Step}
    (h : ∀ error, advance root reach trail (s :: ss) ≠ .refused error) :
    (∃ entries, trail.entry root = .directory entries) ∧
      ∀ n, s = .down n → reach (trail.sizeBelow n) := by
  rw [advance] at h
  cases hentry : trail.entry root with
  | file content =>
    rw [hentry] at h
    exact absurd rfl (h _)
  | link target =>
    rw [hentry] at h
    exact absurd rfl (h _)
  | directory entries =>
    refine ⟨⟨entries, rfl⟩, ?_⟩
    rintro n rfl
    rw [hentry] at h
    by_cases hout : maxNameSize < n.utf8ByteSize || !reach (trail.sizeBelow n)
    · simp only [if_pos hout] at h
      exact absurd rfl (h _)
    · simp only [Bool.or_eq_true, not_or] at hout
      simpa using hout.2

theorem follow_congr {trail' : Trail} {ss' : List Pathname.Step}
    (h : advance root reach trail ss = advance root reach trail' ss') :
    follow root reach links trail ss = follow root reach links trail' ss' := by
  cases links <;> rw [follow, follow, h]

theorem follow_of_arrived (h : advance root reach trail ss = .arrived t) :
    follow root reach links trail ss = .ok (t, links) := by
  cases links <;> rw [follow, h]

theorem follow_of_refused {error : OsError} (h : advance root reach trail ss = .refused error) :
    follow root reach links trail ss = .error error := by
  cases links <;> rw [follow, h]

/-- A walk goes on from where its first part ends. -/
theorem follow_append (ts : List Pathname.Step) :
    follow root reach links trail (ss ++ ts) =
      (follow root reach links trail ss).bind fun r => follow root reach r.2 r.1 ts := by
  fun_induction follow root reach links trail ss with
  | case1 links trail ss t ha => exact follow_congr (by rw [advance_append, ha])
  | case2 links trail ss error ha => exact follow_of_refused (by rw [advance_append, ha])
  | case3 trail ss t target rest ha =>
    rw [follow, advance_append, ha]
    rfl
  | case4 trail ss t target rest ha links p ih =>
    rw [follow, advance_append, ha]
    simp only [← List.append_assoc]
    exact ih

theorem follow_anywhere {r : Trail × Nat} (h : follow root reach links trail ss = .ok r) :
    follow root anywhere links trail ss = .ok r := by
  fun_induction follow root reach links trail ss with
  | case1 links trail ss t ha =>
    rw [← h]
    exact follow_of_arrived ((advance_anywhere (by simp [ha])).trans ha)
  | case2 => cases h
  | case3 => cases h
  | case4 trail ss t target rest ha links p ih =>
    have hany : advance root anywhere trail ss = .linked t target rest :=
      (advance_anywhere (by simp [ha])).trans ha
    rw [follow, hany]
    exact ih h

/-- A step down, to what is no link. -/
theorem follow_down (hdir : trail.entry root = .directory entries)
    (hfind : Entry.find? entries n = some e) (hlink : ∀ target, e ≠ .link target)
    (hsize : n.utf8ByteSize ≤ maxNameSize) (hreach : reach (trail.sizeBelow n)) :
    follow root reach links trail [.down n] = .ok (trail.down n e, links) :=
  follow_of_arrived (advance_down hdir hfind hlink hsize hreach)

theorem follow_stay (hdir : trail.entry root = .directory entries) :
    follow root reach links trail [.stay] = .ok (trail, links) :=
  follow_of_arrived (advance_stay hdir)

theorem of_follow_cons {s : Pathname.Step} {r : Trail × Nat}
    (h : follow root reach links trail (s :: ss) = .ok r) :
    (∃ entries, trail.entry root = .directory entries) ∧
      ∀ n, s = .down n → reach (trail.sizeBelow n) := by
  have hok : ∀ error, advance root reach trail (s :: ss) ≠ .refused error := by
    intro error ha
    rw [follow_of_refused ha] at h
    cases h
  exact of_advance_cons hok

end Steps

/-! ## Entries below a path -/

variable {fs : FileSystem} {reach : Reach} {path n : String} {trail below : Trail}
  {entries : List (String × Entry)} {e : Entry} {place : Place}

theorem walk_eq_ok_iff :
    fs.walk reach path = .ok trail ↔
      ∃ origin links, fs.start (.ofString path) = .ok origin ∧
        follow fs.root reach maxLinks origin (stepsOf (.ofString path)) = .ok (trail, links) := by
  constructor
  · intro h
    obtain ⟨origin, hstart, h⟩ := Attempt.exists_of_bind_eq_ok h
    obtain ⟨r, hfollow, h⟩ := Attempt.exists_of_bind_eq_ok h
    obtain rfl := Except.ok.inj h
    exact ⟨origin, r.2, hstart, hfollow⟩
  · rintro ⟨origin, links, hstart, hfollow⟩
    simp only [walk, hstart, hfollow, bind, Except.bind, pure, Except.pure]

/-- What a slash at the end of a path adds to a walk. -/
theorem follow_stepsOf_iff {p : Pathname} {origin : Trail} {links : Nat}
    (hdir : trail.entry fs.root = .directory entries) :
    follow fs.root reach maxLinks origin (stepsOf p) = .ok (trail, links) ↔
      follow fs.root reach maxLinks origin p.steps = .ok (trail, links) := by
  unfold stepsOf
  split
  · rw [follow_append]
    constructor
    · intro h
      cases hsteps : follow fs.root reach maxLinks origin p.steps with
      | error cause =>
        rw [hsteps] at h
        cases h
      | ok r =>
        rw [hsteps] at h
        obtain ⟨⟨entries, hentry⟩, -⟩ := of_follow_cons h
        rw [← h]
        exact (follow_stay hentry).symm
    · intro h
      rw [h]
      exact follow_stay hdir
  · exact Iff.rfl

theorem start_childPath (hpath : path ≠ "") (hn : Pathname.IsStep n) :
    fs.start (.ofString (childPath path n)) = fs.start (.ofString path) := by
  rw [start, start, Pathname.ofString_childPath hpath hn]

theorem stepsOf_childPath (hpath : path ≠ "") (hn : Pathname.IsStep n) :
    stepsOf (.ofString (childPath path n)) = (Pathname.ofString path).steps ++ [.down n] := by
  rw [stepsOf, Pathname.ofString_childPath hpath hn]
  rfl

/-- A walk to a directory goes on to what it lists. -/
theorem walk_childPath (hpath : path ≠ "") (hn : Pathname.IsStep n)
    (hwalk : fs.walk reach path = .ok trail) (hdir : trail.entry fs.root = .directory entries)
    (hfind : Entry.find? entries n = some e) (hlink : ∀ target, e ≠ .link target)
    (hsize : n.utf8ByteSize ≤ maxNameSize) (hreach : reach (trail.sizeBelow n)) :
    fs.walk reach (childPath path n) = .ok (trail.down n e) := by
  obtain ⟨origin, links, hstart, hfollow⟩ := walk_eq_ok_iff.mp hwalk
  refine walk_eq_ok_iff.mpr ⟨origin, links, (start_childPath hpath hn).trans hstart, ?_⟩
  rw [stepsOf_childPath hpath hn, follow_append, (follow_stepsOf_iff hdir).mp hfollow]
  exact follow_down hdir hfind hlink hsize hreach

/-- A walk to an entry comes through the directory. -/
theorem exists_walk_of_childPath (hpath : path ≠ "") (hn : Pathname.IsStep n)
    (hbelow : fs.walk reach (childPath path n) = .ok below) :
    ∃ trail, fs.walk reach path = .ok trail ∧ reach (trail.sizeBelow n) := by
  obtain ⟨origin, links, hstart, hfollow⟩ := walk_eq_ok_iff.mp hbelow
  rw [start_childPath hpath hn] at hstart
  rw [stepsOf_childPath hpath hn, follow_append] at hfollow
  cases hsteps : follow fs.root reach maxLinks origin (Pathname.ofString path).steps with
  | error cause =>
    rw [hsteps] at hfollow
    cases hfollow
  | ok r =>
    rw [hsteps] at hfollow
    obtain ⟨⟨entries, hentry⟩, hreach⟩ := of_follow_cons hfollow
    exact ⟨r.1, walk_eq_ok_iff.mpr ⟨origin, r.2, hstart, (follow_stepsOf_iff hentry).mpr hsteps⟩,
      hreach n rfl⟩

theorem walk_anywhere (h : fs.walk reach path = .ok trail) : fs.walk anywhere path = .ok trail := by
  obtain ⟨origin, links, hstart, hfollow⟩ := walk_eq_ok_iff.mp h
  exact walk_eq_ok_iff.mpr ⟨origin, links, hstart, follow_anywhere hfollow⟩

theorem checkText_eq_ok_iff : checkText path = .ok () ↔ '\x00' ∉ path.toList ∧ path ≠ "" := by
  unfold checkText
  split
  · simp_all
  · split <;> simp_all

theorem checkPath_eq_ok_iff :
    checkPath path = .ok () ↔ checkText path = .ok () ∧ path.utf8ByteSize < maxPathSize := by
  unfold checkPath
  cases checkText path with
  | error cause => simp [bind, Except.bind]
  | ok u =>
    by_cases hsize : maxPathSize ≤ path.utf8ByteSize
    · simp [bind, Except.bind, hsize, throw, throwThe, MonadExceptOf.throw]
    · simp [bind, Except.bind, hsize, pure, Except.pure, Nat.lt_of_not_le hsize]

theorem lookUp_eq_ok_iff :
    fs.lookUp path = .ok e ↔
      checkPath path = .ok () ∧ ∃ trail, fs.walk anywhere path = .ok trail ∧
        trail.entry fs.root = e := by
  constructor
  · intro h
    obtain ⟨_, hcheck, h⟩ := Attempt.exists_of_bind_eq_ok h
    obtain ⟨trail, hwalk, h⟩ := Attempt.exists_of_bind_eq_ok h
    exact ⟨hcheck, trail, hwalk, Except.ok.inj h⟩
  · rintro ⟨hcheck, trail, hwalk, rfl⟩
    simp only [lookUp, hcheck, hwalk, bind, Except.bind, pure, Except.pure]

theorem resolve_eq_ok_iff :
    fs.resolve path = .ok place ↔
      checkText path = .ok () ∧ ∃ trail, fs.walk nameable path = .ok trail ∧
        trail.place = place := by
  constructor
  · intro h
    obtain ⟨_, hcheck, h⟩ := Attempt.exists_of_bind_eq_ok h
    obtain ⟨trail, hwalk, h⟩ := Attempt.exists_of_bind_eq_ok h
    exact ⟨hcheck, trail, hwalk, Except.ok.inj h⟩
  · rintro ⟨hcheck, trail, hwalk, rfl⟩
    simp only [resolve, hcheck, hwalk, bind, Except.bind, pure, Except.pure]

theorem lookUp_childPath (hlook : fs.lookUp path = .ok (.directory entries))
    (hn : Pathname.IsStep n) (hfind : Entry.find? entries n = some e)
    (hlink : ∀ target, e ≠ .link target) (hsize : n.utf8ByteSize ≤ maxNameSize)
    (hcheck : checkPath (childPath path n) = .ok ()) : fs.lookUp (childPath path n) = .ok e := by
  obtain ⟨hpath, trail, hwalk, hdir⟩ := lookUp_eq_ok_iff.mp hlook
  have hne : path ≠ "" := (checkText_eq_ok_iff.mp (checkPath_eq_ok_iff.mp hpath).1).2
  exact lookUp_eq_ok_iff.mpr
    ⟨hcheck, trail.down n e, walk_childPath hne hn hwalk hdir hfind hlink hsize rfl, rfl⟩

/-- What a directory lists, unless it is a link, is at a place of its own below. -/
theorem exists_resolve_of_childPath (hlook : fs.lookUp path = .ok (.directory entries))
    (hn : Pathname.IsStep n) (hfind : Entry.find? entries n = some e)
    (hlink : ∀ target, e ≠ .link target) (hsize : n.utf8ByteSize ≤ maxNameSize)
    (hbelow : fs.resolve (childPath path n) = .ok place) :
    ∃ above, fs.resolve path = .ok above ∧ place = above ++ [n] := by
  obtain ⟨hpath, trail, hwalk, hdir⟩ := lookUp_eq_ok_iff.mp hlook
  have htext : checkText path = .ok () := (checkPath_eq_ok_iff.mp hpath).1
  have hne : path ≠ "" := (checkText_eq_ok_iff.mp htext).2
  obtain ⟨-, below, hwalkBelow, rfl⟩ := resolve_eq_ok_iff.mp hbelow
  obtain ⟨trail', hwalk', hreach⟩ := exists_walk_of_childPath hne hn hwalkBelow
  obtain rfl : trail' = trail := Except.ok.inj ((walk_anywhere hwalk').symm.trans hwalk)
  have hchild := walk_childPath hne hn hwalk' hdir hfind hlink hsize hreach
  obtain rfl : trail'.down n e = below := Except.ok.inj (hchild.symm.trans hwalkBelow)
  exact ⟨trail'.place, resolve_eq_ok_iff.mpr ⟨htext, trail', hwalk', rfl⟩, by
    simp [Trail.place, Trail.down]⟩

end FileSystem

end LayoutCheck
