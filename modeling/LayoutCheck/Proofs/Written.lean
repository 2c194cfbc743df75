import LayoutCheck.Proofs.LookUp
import LayoutCheck.Proofs.View

/-!
A file that was written can be read again, and nothing else changes.

A walk that ends elsewhere than at the file never passes it, since it was no directory before, so
the walk goes the same way afterwards (`Rewritten.exists_follow`). The path that was written to
leads to the file, links included (`exists_follow_written`). `write_leaves` says what a write leaves
in the file system.
-/

namespace LayoutCheck

namespace FileSystem

section Walks

variable {root root' : Entry} {reach : Reach} {links k : Nat} {t t' u : Trail}
  {ss : List Pathname.Step} {n : String} {entries : List (String × Entry)} {e : Entry}
  {target : Place} {content : ByteArray}

/-- A walk stays in the tree. -/
theorem within_of_advance (h : t.Within root) :
    (∀ u, advance root reach t ss = .arrived u → u.Within root) ∧
      ∀ u text rest, advance root reach t ss = .linked u text rest → u.Within root := by
  fun_induction advance root reach t ss with
  | case1 t => exact ⟨by rintro u ⟨⟩; exact h, by simp⟩
  | case2 t ss entries hdir ih => exact ih h
  | case3 t ss entries hdir ih => exact ih h.tail
  | case6 t ss entries hdir n hin target hfind =>
    exact ⟨by simp, by rintro u text rest ⟨⟩; exact h⟩
  | case7 t ss entries hdir n hin e hlink hfind ih => exact ih (h.down hdir hfind)
  | case4 | case5 | case8 => exact ⟨by simp, by simp⟩

theorem within_originOf (h : t.Within root) (p : Pathname) : (originOf p t).Within root := by
  unfold originOf
  split
  · exact .nil
  · exact h

theorem within_of_follow (h : t.Within root) (hu : follow root reach links t ss = .ok (u, k)) :
    u.Within root := by
  fun_induction follow root reach links t ss with
  | case1 links t ss v ha =>
    obtain ⟨rfl, -⟩ := Prod.mk.inj (Except.ok.inj hu)
    exact (within_of_advance h).1 _ ha
  | case2 => cases hu
  | case3 => cases hu
  | case4 t ss v text rest ha links p ih =>
    exact ih (within_originOf ((within_of_advance h).2 _ _ _ ha) p) hu

/-- One tree is the other with a file at the target, where at most a file was before. -/
structure Rewritten (root root' : Entry) (target : Place) (content : ByteArray) : Prop where
  labelAt? : ∀ p, root'.labelAt? p = if p = target then some (.file content) else root.labelAt? p
  free : ∀ l, root.labelAt? target = some l → ∃ old, l = .file old

/-- Walks in two trees that have come to the same place. -/
structure Beside (root root' : Entry) (t t' : Trail) : Prop where
  before : t.Within root
  after : t'.Within root'
  place_eq : t'.place = t.place

namespace Beside

theorem nil : Beside root root' [] [] := ⟨.nil, .nil, rfl⟩

theorem tail (b : Beside root root' t t') : Beside root root' t.tail t'.tail :=
  ⟨b.before.tail, b.after.tail, by rw [Trail.place_tail, Trail.place_tail, b.place_eq]⟩

theorem down {e' : Entry} {entries' : List (String × Entry)} (b : Beside root root' t t')
    (hdir : t.entry root = .directory entries) (hfind : Entry.find? entries n = some e)
    (hdir' : t'.entry root' = .directory entries') (hfind' : Entry.find? entries' n = some e') :
    Beside root root' (t.down n e) (t'.down n e') :=
  ⟨b.before.down hdir hfind, b.after.down hdir' hfind', by
    rw [Trail.place_down, Trail.place_down, b.place_eq]⟩

theorem originOf (b : Beside root root' t t') (p : Pathname) :
    Beside root root' (originOf p t) (originOf p t') := by
  unfold FileSystem.originOf
  split
  · exact nil
  · exact b

end Beside

inductive Alike (root root' : Entry) : Advance → Advance → Prop where
  | arrived {t t' : Trail} : Beside root root' t t' → Alike root root' (.arrived t) (.arrived t')
  | linked {t t' : Trail} (text : String) (rest : List Pathname.Step) :
      Beside root root' t t' → Alike root root' (.linked t text rest) (.linked t' text rest)

namespace Rewritten

/-- There was no directory at the target. -/
theorem ne_of_directory (h : Rewritten root root' target content) (hwithin : t.Within root)
    (hdir : t.entry root = .directory entries) : t.place ≠ target := by
  rintro rfl
  obtain ⟨old, hold⟩ := h.free .directory (by rw [hwithin.labelAt?, hdir]; rfl)
  cases hold

theorem directory (h : Rewritten root root' target content) (b : Beside root root' t t')
    (hdir : t.entry root = .directory entries) :
    ∃ entries', t'.entry root' = .directory entries' := by
  have hafter := b.after.labelAt?
  rw [b.place_eq, h.labelAt?, if_neg (h.ne_of_directory b.before hdir), b.before.labelAt?,
    hdir] at hafter
  exact Entry.label_eq_directory.mp (Option.some.inj hafter).symm

/-- An entry that is not the file is found again, with the same label. -/
theorem find? (h : Rewritten root root' target content) (b : Beside root root' t t')
    (hdir : t.entry root = .directory entries) (hfind : Entry.find? entries n = some e)
    (hne : t.place ++ [n] ≠ target) :
    ∃ entries' e', t'.entry root' = .directory entries' ∧
      Entry.find? entries' n = some e' ∧ e'.label = e.label := by
  obtain ⟨entries', hdir'⟩ := h.directory b hdir
  have hafter := b.after.labelAt?_below hdir' n
  rw [b.place_eq, h.labelAt?, if_neg hne, b.before.labelAt?_below hdir, hfind] at hafter
  obtain ⟨e', hfind', hlabel⟩ := Option.map_eq_some_iff.mp hafter.symm
  exact ⟨entries', e', hdir', hfind', hlabel⟩

/-- The file is found where it was written. -/
theorem find?_target (h : Rewritten root root' target content) (b : Beside root root' t t')
    (hdir : t.entry root = .directory entries) (htarget : t.place ++ [n] = target) :
    ∃ entries', t'.entry root' = .directory entries' ∧
      Entry.find? entries' n = some (.file content) := by
  obtain ⟨entries', hdir'⟩ := h.directory b hdir
  have hafter := b.after.labelAt?_below hdir' n
  rw [b.place_eq, h.labelAt?, if_pos htarget] at hafter
  obtain ⟨e', hfind', hlabel⟩ := Option.map_eq_some_iff.mp hafter.symm
  exact ⟨entries', hdir', hfind'.trans (congrArg some (Entry.label_eq_file.mp hlabel))⟩

/-- A link is not the file. -/
theorem link_ne (h : Rewritten root root' target content) (hwithin : t.Within root)
    (hdir : t.entry root = .directory entries) {text : String}
    (hfind : Entry.find? entries n = some (.link text)) : t.place ++ [n] ≠ target := by
  rintro rfl
  obtain ⟨old, hold⟩ := h.free (.link text) (by rw [hwithin.labelAt?_below hdir, hfind]; rfl)
  cases hold

/-- What is found with the label of no link is no link. -/
theorem ne_link {e e' : Entry} (hlabel : e'.label = e.label) (hlink : ∀ text, e ≠ .link text)
    (text : String) : e' ≠ .link text := by
  rintro rfl
  exact hlink text (Entry.label_eq_link.mp hlabel.symm)

/-- Steps that do not end at the file do not pass it, and go on alike. -/
theorem alike_advance (h : Rewritten root root' target content) (b : Beside root root' t t')
    (hok : ∀ error, advance root anywhere t ss ≠ .refused error)
    (hend : ∀ u, advance root anywhere t ss = .arrived u → u.place ≠ target) :
    Alike root root' (advance root anywhere t ss) (advance root' anywhere t' ss) := by
  fun_induction advance root anywhere t ss generalizing t' with
  | case1 t => exact .arrived b
  | case2 t ss entries hdir ih =>
    obtain ⟨entries', hdir'⟩ := h.directory b hdir
    rw [advance_stay hdir']
    exact ih b hok hend
  | case3 t ss entries hdir ih =>
    obtain ⟨entries', hdir'⟩ := h.directory b hdir
    rw [advance_up hdir']
    exact ih b.tail hok hend
  | case6 t ss entries hdir n hin text hfind =>
    obtain ⟨entries', e', hdir', hfind', hlabel⟩ :=
      h.find? b hdir hfind (h.link_ne b.before hdir hfind)
    obtain rfl := Entry.label_eq_link.mp hlabel
    rw [advance_link hdir' hfind' (size_le_of_not_refused hin) rfl]
    exact .linked text ss b
  | case7 t ss entries hdir n hin e hlink hfind ih =>
    have hne : t.place ++ [n] ≠ target := by
      rw [← Trail.place_down t n e]
      cases ss with
      | nil => exact hend (t.down n e) rfl
      | cons s ss =>
        obtain ⟨⟨below, hbelow⟩, -⟩ := of_advance_cons hok
        exact h.ne_of_directory (b.before.down hdir hfind) hbelow
    obtain ⟨entries', e', hdir', hfind', hlabel⟩ := h.find? b hdir hfind hne
    rw [advance_down hdir' hfind' (ne_link hlabel hlink) (size_le_of_not_refused hin) rfl]
    exact ih (b.down hdir hfind hdir' hfind') hok hend
  | case4 | case5 | case8 => exact absurd rfl (hok _)

/-- A walk that does not end at the file goes the same way afterwards. -/
theorem exists_follow (h : Rewritten root root' target content) (b : Beside root root' t t')
    (hu : follow root anywhere links t ss = .ok (u, k)) (hne : u.place ≠ target) :
    ∃ u', follow root' anywhere links t' ss = .ok (u', k) ∧ Beside root root' u u' := by
  fun_induction follow root anywhere links t ss generalizing t' with
  | case1 links t ss v ha =>
    obtain ⟨rfl, rfl⟩ := Prod.mk.inj (Except.ok.inj hu)
    have hend : ∀ w, advance root anywhere t ss = .arrived w → w.place ≠ target := by
      intro w hw
      cases ha.symm.trans hw
      exact hne
    have halike := h.alike_advance b (by simp [ha]) hend
    rw [ha] at halike
    generalize ha' : advance root' anywhere t' ss = a' at halike
    cases halike with
    | arrived b' => exact ⟨_, follow_of_arrived ha', b'⟩
  | case2 => cases hu
  | case3 => cases hu
  | case4 t ss v text rest ha links p =>
    rename_i ih
    have hend : ∀ w, advance root anywhere t ss = .arrived w → w.place ≠ target := by simp [ha]
    have halike := h.alike_advance b (by simp [ha]) hend
    rw [ha] at halike
    generalize ha' : advance root' anywhere t' ss = a' at halike
    cases halike with
    | linked _ _ b' =>
      obtain ⟨u', hu', bu⟩ := ih (b'.originOf p) hu
      refine ⟨u', ?_, bu⟩
      rw [follow, ha']
      exact hu'

end Rewritten

end Walks

/-! ## Where a file is written -/

section Places

variable {root : Entry} {fuel links k : Nat} {origin origin' : Trail} {p : Pathname}
  {place : Place} {name : String} {content : ByteArray}

/-- What a path that can be written to leads to: a file or nothing, or a link to such a path. -/
theorem of_writePlace (h : writePlace root fuel links origin p = .ok (place, name)) :
    ∃ fuel' trail k n entries, fuel = fuel' + 1 ∧
      follow root anywhere links origin p.steps.dropLast = .ok (trail, k) ∧
      trail.entry root = .directory entries ∧ n.utf8ByteSize ≤ maxNameSize ∧
      stepsOf p = p.steps.dropLast ++ [.down n] ∧
      ((trail.place = place ∧ n = name ∧ Entry.Free entries name) ∨
        ∃ k' text, k = k' + 1 ∧ Entry.find? entries n = some (.link text) ∧
          writePlace root fuel' k' (originOf (.ofString text) trail) (.ofString text) =
            .ok (place, name)) := by
  cases fuel with
  | zero => cases h
  | succ fuel =>
    rw [writePlace] at h
    cases hlast : p.steps.getLast? with
    | none =>
      rw [hlast] at h
      cases h
    | some last =>
      rw [hlast] at h
      obtain ⟨⟨trail, k⟩, hfollow, h⟩ := Attempt.exists_of_bind_eq_ok h
      simp only at h
      cases hdir : trail.entry root with
      | file | link => simp [hdir] at h
      | directory entries =>
        rw [hdir] at h
        cases last with
        | stay | up => cases h
        | down n =>
          simp only at h
          split at h
          · cases h
          rename_i hslash
          split at h
          · cases h
          rename_i hsize
          have hsteps : stepsOf p = p.steps.dropLast ++ [.down n] := by
            obtain ⟨above, habove⟩ := List.getLast?_eq_some_iff.mp hlast
            rw [stepsOf, if_neg hslash, habove, List.dropLast_concat]
          refine ⟨fuel, trail, k, n, entries, rfl, hfollow, hdir, Nat.le_of_not_lt hsize, hsteps,
            ?_⟩
          cases hfind : Entry.find? entries n with
          | none =>
            rw [hfind] at h
            obtain ⟨rfl, rfl⟩ := Prod.mk.inj (Except.ok.inj h)
            exact .inl ⟨rfl, rfl, by simp [Entry.Free, hfind]⟩
          | some e =>
            rw [hfind] at h
            cases e with
            | directory => cases h
            | file old =>
              obtain ⟨rfl, rfl⟩ := Prod.mk.inj (Except.ok.inj h)
              exact .inl ⟨rfl, rfl, by simp [Entry.Free, hfind]⟩
            | link text =>
              cases k with
              | zero => cases h
              | succ k => exact .inr ⟨k, text, rfl, rfl, h⟩

/-- There is room for the file: a directory, in which at most a file has the name. -/
theorem exists_free_of_writePlace (hwithin : origin.Within root)
    (h : writePlace root fuel links origin p = .ok (place, name)) :
    ∃ entries, root.at? place = some (.directory entries) ∧ Entry.Free entries name := by
  induction fuel generalizing links origin p with
  | zero => cases h
  | succ fuel ih =>
    obtain ⟨_, trail, k, n, entries, hfuel, hfollow, hdir, -, -, hend⟩ := of_writePlace h
    have htrail : trail.Within root := within_of_follow hwithin hfollow
    obtain rfl := Nat.succ.inj hfuel
    rcases hend with ⟨rfl, rfl, hfree⟩ | ⟨k', text, -, -, hrest⟩
    · exact ⟨entries, htrail.at?.trans (congrArg some hdir), hfree⟩
    · exact ih (within_originOf htrail _) hrest

theorem rewritten_putAt {entries : List (String × Entry)}
    (hdir : root.at? place = some (.directory entries)) (hfree : Entry.Free entries name) :
    Rewritten root (root.putAt place name (.file content)) (place ++ [name]) content where
  labelAt? := Entry.labelAt?_putAt hdir hfree
  free := by
    intro l hl
    rw [Entry.labelAt?, Entry.at?_append, hdir, Option.bind_some, Entry.at?_directory_cons] at hl
    cases hfind : Entry.find? entries name with
    | none => simp [hfind] at hl
    | some e =>
      obtain ⟨old, rfl⟩ := hfree e hfind
      rw [hfind] at hl
      exact ⟨old, (Option.some.inj hl).symm⟩

/-- The path that was written to leads to the file. -/
theorem exists_follow_written {root' : Entry}
    (hnew : Rewritten root root' (place ++ [name]) content)
    (b : Beside root root' origin origin')
    (h : writePlace root fuel links origin p = .ok (place, name)) :
    ∃ u k, follow root' anywhere links origin' (stepsOf p) = .ok (u, k) ∧
      u.entry root' = .file content ∧ u.place = place ++ [name] := by
  induction fuel generalizing links origin origin' p with
  | zero => cases h
  | succ fuel ih =>
    obtain ⟨_, trail, k, n, entries, hfuel, hfollow, hdir, hsize, hsteps, hend⟩ := of_writePlace h
    have htrail : trail.Within root := within_of_follow b.before hfollow
    obtain ⟨trail', hfollow', bt⟩ :=
      hnew.exists_follow b hfollow (hnew.ne_of_directory htrail hdir)
    have hwalk : follow root' anywhere links origin' (stepsOf p) =
        follow root' anywhere k trail' [.down n] := by
      rw [hsteps, follow_append, hfollow']
      rfl
    obtain rfl := Nat.succ.inj hfuel
    rcases hend with ⟨rfl, rfl, -⟩ | ⟨k', text, rfl, hfind, hrest⟩
    · obtain ⟨entries', hdir', hfile⟩ := hnew.find?_target bt hdir rfl
      refine ⟨trail'.down n (.file content), k, ?_, rfl, by simp [bt.place_eq]⟩
      rw [hwalk]
      exact follow_down hdir' hfile (by simp) hsize rfl
    · obtain ⟨entries', e', hdir', hfind', hlabel⟩ :=
        hnew.find? bt hdir hfind (hnew.link_ne htrail hdir hfind)
      obtain rfl := Entry.label_eq_link.mp hlabel
      obtain ⟨u, j, hu, hfile⟩ := ih (bt.originOf _) hrest
      refine ⟨u, j, ?_, hfile⟩
      rw [hwalk, follow, advance_link hdir' hfind' hsize rfl]
      simpa using hu

end Places

/-! ## Writing and reading -/

variable {fs after : FileSystem} {path : String} {p : Pathname} {origin : Trail} {target : Place}
  {place : Place} {name : String} {content : ByteArray}

theorem write_eq_ok_iff :
    fs.write path content = .ok after ↔
      checkPath path = .ok () ∧ ∃ origin place name, fs.start (.ofString path) = .ok origin ∧
        writePlace fs.root (maxLinks + 1) maxLinks origin (.ofString path) = .ok (place, name) ∧
        { fs with root := fs.root.putAt place name (.file content) } = after := by
  constructor
  · intro h
    obtain ⟨_, hcheck, h⟩ := Attempt.exists_of_bind_eq_ok h
    obtain ⟨origin, hstart, h⟩ := Attempt.exists_of_bind_eq_ok h
    obtain ⟨⟨place, name⟩, hplace, h⟩ := Attempt.exists_of_bind_eq_ok h
    exact ⟨hcheck, origin, place, name, hstart, hplace, Except.ok.inj h⟩
  · rintro ⟨hcheck, origin, place, name, hstart, hplace, rfl⟩
    simp only [write, hcheck, hstart, hplace, bind, Except.bind, pure, Except.pure]

/-- A trail goes straight to whatever there is. -/
theorem exists_trailTo {root : Entry} (h : (root.at? place).isSome) :
    ∃ t, trailTo root place = .ok t ∧ t.Within root ∧ t.place = place := by
  have hnil : Trail.Within root [] := .nil
  obtain ⟨t, ht, hwithin, hplace⟩ := hnil.exists_extend? h
  exact ⟨t, by rw [trailTo, ht], hwithin, by simpa using hplace⟩

theorem of_trailTo {root : Entry} {t : Trail} (h : trailTo root place = .ok t) :
    t.Within root ∧ t.place = place := by
  have hplace : (root.at? place).isSome := by
    rw [trailTo] at h
    split at h
    · rename_i ht
      exact Trail.isSome_at?_of_extend? ht
    · cases h
  obtain ⟨u, hu, hwithin⟩ := exists_trailTo hplace
  obtain rfl : t = u := Except.ok.inj (h.symm.trans hu)
  exact hwithin

theorem within_of_start (h : fs.start p = .ok origin) : origin.Within fs.root := by
  unfold start at h
  split at h
  · cases h
    exact .nil
  · exact (of_trailTo h).1

/-- A path begins at the same place afterwards. -/
theorem exists_start {root' : Entry} (hnew : Rewritten fs.root root' target content)
    (h : fs.start p = .ok origin) :
    ∃ origin', ({ fs with root := root' } : FileSystem).start p = .ok origin' ∧
      Beside fs.root root' origin origin' := by
  unfold start at h ⊢
  split
  · rename_i habsolute
    rw [if_pos habsolute] at h
    cases h
    exact ⟨[], rfl, .nil⟩
  · rename_i habsolute
    rw [if_neg habsolute] at h
    obtain ⟨hwithin, hplace⟩ := of_trailTo h
    have hthere : (root'.at? fs.current).isSome := by
      have hlabel : (root'.labelAt? fs.current).isSome := by
        rw [hnew.labelAt?]
        split
        · rfl
        · rw [← hplace, hwithin.labelAt?]
          rfl
      simpa [Entry.labelAt?] using hlabel
    obtain ⟨origin', hstart, hwithin', hplace'⟩ := exists_trailTo hthere
    exact ⟨origin', hstart, hwithin, hwithin', hplace'.trans hplace.symm⟩

/--
After a file was written its path leads to it, links included. It has the content that was written,
and every other place is what it was.
-/
theorem write_leaves (h : fs.write path content = .ok after) :
    after.readBytes path = .ok content ∧ after.current = fs.current ∧
      ∃ trail, after.walk anywhere path = .ok trail ∧
        ∀ p, after.root.labelAt? p =
          if p = trail.place then some (.file content) else fs.root.labelAt? p := by
  obtain ⟨hcheck, origin, place, name, hstart, hplace, rfl⟩ := write_eq_ok_iff.mp h
  obtain ⟨entries, hdir, hfree⟩ := exists_free_of_writePlace (within_of_start hstart) hplace
  have hnew : Rewritten fs.root (fs.root.putAt place name (.file content)) _ content :=
    rewritten_putAt hdir hfree
  obtain ⟨origin', hstart', b⟩ := exists_start hnew hstart
  obtain ⟨u, k, hfollow, hfile, hu⟩ := exists_follow_written hnew b hplace
  have hwalk := walk_eq_ok_iff.mpr ⟨origin', k, hstart', hfollow⟩
  refine ⟨?_, rfl, u, hwalk, hu ▸ hnew.labelAt?⟩
  have hlook := lookUp_eq_ok_iff.mpr ⟨hcheck, u, hwalk, hfile⟩
  simp only [readBytes, hlook, bind, Except.bind, pure, Except.pure]

end FileSystem

end LayoutCheck
