import LayoutCheck.Proofs.DeclaredOrder
import LayoutCheck.Proofs.Retouching
import LayoutCheck.Proofs.Siblings

/-!
An entry that is declared again makes no difference where it was declared first.

`Reads` says what a node declares, wherever it stands (`outcome_node_eq_ok_iff`). An item of a
content list that a later one of its name follows can be deleted: the tree that is declared without
it is rearranged at most (`Redeclared.reads`), so it has as many entries and is compared alike with
every other tree (`last_declaration_counts`).
-/

namespace LayoutCheck

open Yaml (Entries Value)
open LayoutCheck.Tree (Rearranged)

/-- A list that is related to an append is an append of related lists. -/
theorem exists_append_of_forall₂ {α β : Type} {R : α → β → Prop} {as bs : List α} {ds : List β}
    (h : List.Forall₂ R (as ++ bs) ds) :
    ∃ cs es, ds = cs ++ es ∧ List.Forall₂ R as cs ∧ List.Forall₂ R bs es :=
  ⟨ds.take as.length, ds.drop as.length, (List.take_append_drop ..).symm,
    (List.forall₂_take_append ds as bs h.flip).flip,
    (List.forall₂_drop_append ds as bs h.flip).flip⟩

namespace Specification.SelfDescribing

open Attempt

variable {place : Place} {location text : String} {entries before after : Entries}
  {items : List Value} {field : Field} {h : Header} {v : Value} {t : Tree}

/-! ## What a node declares -/

theorem optionalText_elsewhere {found : Option String}
    (ht : optionalText entries field location = .ok found) (location' : String) :
    optionalText entries field location' = .ok found := by
  unfold optionalText at ht ⊢
  split at ht <;> simp_all

theorem requiredText_elsewhere (ht : requiredText entries field location = .ok text)
    (location' : String) : requiredText entries field location' = .ok text :=
  requiredText_of_field? (field?_of_requiredText ht) location'

/-- Of what a node says of itself only the location depends on where it stands. -/
theorem readHeader_elsewhere (hr : readHeader place entries = .ok h) (place' : Place) :
    readHeader place' entries = .ok { h with location := namedPlaceText h.name place' } := by
  obtain ⟨type, hname, haccepted, htype, hdescription, heq⟩ := exists_type_of_readHeader hr
  rw [heq]
  simp only [readHeader, requiredText_elsewhere hname, checkEntryName_of_isEntryName haccepted,
    requiredText_elsewhere htype, optionalText_elsewhere hdescription, bind, Except.bind]
  rfl

theorem field?_name_of_readHeader (hr : readHeader place entries = .ok h) :
    field? entries .name = some (.string h.name) := by
  obtain ⟨_, hname, _⟩ := exists_type_of_readHeader hr
  exact field?_of_requiredText hname

/-- The value declares the tree as a node, at one place or another. -/
inductive Reads : Value → Tree → Prop where
  | file {place : Place} {entries : Entries} {h : Header} :
      readHeader place entries = .ok h → ¬ h.isDirectory →
        Reads (.mapping entries) (h.attach (.leaf h.name))
  /-- A directory without content is empty. -/
  | directory {place : Place} {entries : Entries} {h : Header} {items : Option (List Value)}
      {cs : List Tree} :
      readHeader place entries = .ok h → h.isDirectory →
        field? entries .content = items.map Value.sequence →
          List.Forall₂ Reads (items.getD []) cs →
            Reads (.mapping entries) (h.attach (.branch h.name cs))

theorem yields_content_reads
    (hv : ∀ items, field? entries .content = some (.sequence items) → ∀ v ∈ items, ∀ place,
      (node place v).Yields (Reads v)) (location : String) :
    (content location entries).Yields fun cs => ∃ items : Option (List Value),
      field? entries .content = items.map Value.sequence ∧
        List.Forall₂ Reads (items.getD []) cs := by
  rw [content_eq]
  cases hfield : field? entries .content with
  | none => exact yields_pure ⟨none, rfl, .nil⟩
  | some value =>
    cases value with
    | sequence items =>
      show (contentValue location (.sequence items)).Yields _
      rw [contentValue]
      intro cs hcs
      exact ⟨some items, rfl, yields_nodes_forall₂ (hv items hfield) 0 cs hcs⟩
    | scalar | mapping | tagged =>
      show (contentValue location _).Yields _
      rw [contentValue]
      exact yields_throw _

theorem yields_node_reads (v : Value) (place : Place) : (node place v).Yields (Reads v) := by
  induction v using nodeInduction generalizing place with
  | other v hv =>
    cases v with
    | mapping entries => exact absurd rfl (hv entries)
    | scalar | sequence | tagged =>
      rw [node]
      exact yields_throw _
  | mapping entries ih =>
    rw [node]
    refine Yields.bind (yields_except fun h hr => hr) ?_
    intro h hr
    split
    · rename_i hd
      refine (yields_content_reads ih h.location).bind ?_
      rintro cs ⟨items, hfield, hitems⟩
      refine (yields_logged (P := (· = Tree.branch h.name cs)) rfl).bind ?_
      rintro _ rfl
      exact yields_pure (.directory hr hd hfield hitems)
    · rename_i hd
      intro t ht
      rw [outcome_file] at ht
      obtain rfl := Except.ok.inj ht
      exact .file hr hd

theorem outcome_node_of_reads (hread : Reads v t) (place : Place) :
    (node place v).outcome = .ok t := by
  induction v using nodeInduction generalizing t place with
  | other v hv =>
    cases hread with
    | file => exact absurd rfl (hv _)
    | directory => exact absurd rfl (hv _)
  | mapping entries ih =>
    cases hread with
    | file hr hd =>
      rw [node, outcome_except_bind_of_ok (readHeader_elsewhere hr place), if_neg hd, outcome_file]
      rfl
    | @directory _ _ h items cs hr hd hfield hitems =>
      have hcontent : ∀ location, (content location entries).outcome = .ok cs := by
        intro location
        rw [content_eq, hfield]
        cases items with
        | none =>
          cases hitems
          rfl
        | some items =>
          show (contentValue location (.sequence items)).outcome = .ok cs
          rw [contentValue]
          exact outcome_nodes_of_forall₂ hitems
            (fun v hv c _ place hread => ih items hfield v hv hread place) 0
      rw [node, outcome_except_bind_of_ok (readHeader_elsewhere hr place), if_pos hd,
        outcome_bind_of_ok (hcontent _)]
      rfl

/-- A value is read as what it declares, wherever it stands. -/
theorem outcome_node_eq_ok_iff : (node place v).outcome = .ok t ↔ Reads v t :=
  ⟨yields_node_reads v place t, fun hread => outcome_node_of_reads hread place⟩

theorem outcome_parseTree_eq_ok_iff :
    (parseTree entries).outcome = .ok t ↔ Reads (.mapping entries) t ∧ t.kind = .directory := by
  constructor
  · intro hparse
    rw [parseTree, outcome_bind] at hparse
    obtain ⟨root, hroot, hparse⟩ := exists_of_bind_eq_ok hparse
    split at hparse
    · rename_i hd
      obtain rfl := Except.ok.inj hparse
      exact ⟨outcome_node_eq_ok_iff.mp hroot, of_decide_eq_true hd⟩
    · cases hparse
  · rintro ⟨hread, hk⟩
    rw [parseTree, outcome_bind_of_ok (outcome_node_of_reads hread none),
      if_pos (show t.isDirectory from decide_eq_true hk), outcome_pure]

theorem Reads.field?_name (hread : Reads (.mapping entries) t) :
    field? entries .name = some (.string t.name) := by
  cases hread with
  | file hr =>
    rw [name_attach]
    exact field?_name_of_readHeader hr
  | directory hr =>
    rw [name_attach]
    exact field?_name_of_readHeader hr

/-! ## Deleting an item -/

/-- One item less in the content of a node, or of a node in it, where a later item has its name. -/
inductive Redeclared : Entries → Entries → Prop where
  | here {before after entries fs : Entries} {left between right : List Value} :
      field? entries .name = field? fs .name →
        Redeclared
          (before ++ (.string Field.content.text,
            .sequence (left ++ .mapping entries :: (between ++ .mapping fs :: right))) :: after)
          (before ++ (.string Field.content.text,
            .sequence (left ++ (between ++ .mapping fs :: right))) :: after)
  | item {before after entries fs : Entries} {left right : List Value} : Redeclared entries fs →
      Redeclared
        (before ++ (.string Field.content.text, .sequence (left ++ .mapping entries :: right)) ::
          after)
        (before ++ (.string Field.content.text, .sequence (left ++ .mapping fs :: right)) :: after)

theorem attach_rearranged {u : Tree} (htu : t.Rearranged u) (h : Header) :
    (h.attach t).Rearranged (h.attach u) := by
  unfold Header.attach
  split
  · cases htu with
    | file => exact .file
    | directory hperm hall => exact .directory hperm hall
  · exact htu

/-- A content list can be replaced by one of which directories are rearranged at most. -/
theorem Reads.replace_content {items' : List Value}
    (hread : Reads (.mapping (before ++ (.string Field.content.text, .sequence items) :: after)) t)
    (h : ∀ cs, List.Forall₂ Reads items cs → ∃ ds, List.Forall₂ Reads items' ds ∧
      ∀ n, (Tree.branch n cs).Rearranged (Tree.branch n ds)) :
    ∃ u, Reads (.mapping (before ++ (.string Field.content.text, .sequence items') :: after)) u ∧
      t.Rearranged u := by
  have hfields : ∀ field : Field, field ≠ .content →
      field? (before ++ (.string Field.content.text, .sequence items) :: after) field =
        field? (before ++ (.string Field.content.text, .sequence items') :: after) field := by
    intro field hne
    rw [field?_insert_content _ hne, field?_insert_content _ hne]
  cases hread with
  | file hr hd =>
    rw [readHeader_congr hfields] at hr
    exact ⟨_, .file hr hd, .refl _⟩
  | @directory _ _ header found cs hr hd hfield hitems =>
    rw [readHeader_congr hfields] at hr
    rw [field?, Entries.value?_insert_self] at hfield
    cases hfirst : before.value? (.string Field.content.text) with
    | some value =>
      refine ⟨_, .directory hr hd ?_ hitems, .refl _⟩
      rw [field?, Entries.value?_insert_self, hfirst, Option.some_or]
      rwa [hfirst, Option.some_or] at hfield
    | none =>
      rw [hfirst, Option.none_or] at hfield
      obtain rfl : found = some items := by
        cases found <;> simp_all
      obtain ⟨ds, hds, hbranch⟩ := h cs hitems
      have hcontent : field? (before ++ (.string Field.content.text, .sequence items') :: after)
          .content = (some items').map Value.sequence := by
        rw [field?, Entries.value?_insert_self, hfirst, Option.none_or]
        rfl
      exact ⟨_, .directory hr hd hcontent hds, attach_rearranged (hbranch _) header⟩

/-- Without an item that is declared again a node declares the same tree, rearranged at most. -/
theorem Redeclared.reads {fs : Entries} (h : Redeclared entries fs)
    (hread : Reads (.mapping entries) t) : ∃ u, Reads (.mapping fs) u ∧ t.Rearranged u := by
  induction h generalizing t with
  | here hname =>
    refine hread.replace_content fun cs hcs => ?_
    obtain ⟨ls, _, rfl, hls, hfirst⟩ := exists_append_of_forall₂ hcs
    obtain ⟨c, _, hc, hrest, rfl⟩ := List.forall₂_cons_left_iff.mp hfirst
    obtain ⟨ms, _, rfl, hms, hlast⟩ := exists_append_of_forall₂ hrest
    obtain ⟨d, rs, hd, hrs, rfl⟩ := List.forall₂_cons_left_iff.mp hlast
    have hcd : c.name = d.name := by
      rw [hc.field?_name, hd.field?_name] at hname
      simpa using hname
    exact ⟨ls ++ (ms ++ d :: rs), List.rel_append hls (List.rel_append hms (.cons hd hrs)),
      fun n => Tree.rearranged_branch_of_shadowed hcd n ls ms rs⟩
  | item _ ih =>
    refine hread.replace_content fun cs hcs => ?_
    obtain ⟨ls, _, rfl, hls, hrest⟩ := exists_append_of_forall₂ hcs
    obtain ⟨c, rs, hc, hrs, rfl⟩ := List.forall₂_cons_left_iff.mp hrest
    obtain ⟨d, hd, hcd⟩ := ih hc
    have hall : List.Forall₂ Rearranged (ls ++ c :: rs) (ls ++ d :: rs) :=
      List.rel_append (List.forall₂_refl ls) (.cons hcd (List.forall₂_refl rs))
    exact ⟨ls ++ d :: rs, List.rel_append hls (.cons hd hrs), Tree.rearranged_branch hall⟩

end Specification.SelfDescribing

namespace Specification

open SelfDescribing (Redeclared parseTree)

/--
Of the entries of one name that a directory is given it keeps the last, in the place of the first,
and warns of each other one. So an item of a content list that a later item of its name follows can
be deleted, wherever it is in a document: the tree that is declared then has as many entries, and
every comparison with it ends alike.
-/
theorem last_declaration_counts :
    (∀ (n : String) (entries : List Tree),
      (Tree.branch n entries).childNames = (entries.map Tree.name).eraseDups ∧
      (∀ m, (Tree.branch n entries).child? m = (entries.filter (·.name = m)).getLast?) ∧
      (Tree.branchLogged n entries).messages =
        List.replicate (entries.length - (entries.map Tree.name).toFinset.card)
          (Tree.repeatWarning n)) ∧
    ∀ entries fs, Redeclared entries fs → ∀ t, (parseTree entries).outcome = .ok t →
      ∃ u, (parseTree fs).outcome = .ok u ∧ u.descendantCount = t.descendantCount ∧
        ∀ a, (compareRoots u a).value = (compareRoots t a).value := by
  refine ⟨fun n entries => ⟨Tree.childNames_branch n entries, Tree.child?_branch n entries,
    Tree.repeatWarnings_eq_replicate n entries⟩, ?_⟩
  intro entries fs h t hparse
  have hwell : t.WellFormed :=
    (Dialect.yields_declared .selfDescribing entries t hparse).wellFormed
  obtain ⟨hread, hk⟩ := SelfDescribing.outcome_parseTree_eq_ok_iff.mp hparse
  obtain ⟨u, hu, htu⟩ := h.reads hread
  exact ⟨u, SelfDescribing.outcome_parseTree_eq_ok_iff.mpr ⟨hu, htu.kind_eq.symm.trans hk⟩,
    htu.descendantCount_eq.symm, fun a => (compareRoots_eq_of_declared_rearranged hwell htu a).symm⟩

/-- The entry that is declared again stood first, and an observed name has a slash in it. -/
theorem last_declaration_counts_nested :
    let node (name type : String) (items : List Value) : Entries :=
      [(.string "name", .string name), (.string "type", .string type),
        (.string "content", .sequence items)]
    let main : Value := .mapping (node "main.rs" "file" [])
    let lib : Entries := node "lib" "dir" [.mapping (node "io.rs" "file" [])]
    let document : Entries :=
      node "project" "dir" [.mapping (node "src" "dir" [.mapping (node "lib" "file" []), main,
        .mapping lib])]
    let edited : Entries := node "project" "dir" [.mapping (node "src" "dir" [main, .mapping lib])]
    let t := Tree.branch "project"
      [.branch "src" [.branch "lib" [.leaf "io.rs"], .leaf "main.rs"]]
    let u := Tree.branch "project"
      [.branch "src" [.leaf "main.rs", .branch "lib" [.leaf "io.rs"]]]
    let a := Tree.branch "project" [.branch "src" [.leaf "lib/io.rs", .leaf "main.rs"]]
    Redeclared document edited ∧ (parseTree document).outcome = .ok t ∧
      (parseTree edited).outcome = .ok u ∧ u ≠ t ∧ u.descendantCount = t.descendantCount ∧
      (compareRoots u a).value.results.entries = [("project/src", .compliant),
        ("project/src/lib", .missing), ("project/src/lib/io.rs", .missing),
        ("project/src/main.rs", .compliant)] := by
  intro node main lib document edited t u a
  have hinner : Redeclared (node "src" "dir" [.mapping (node "lib" "file" []), main, .mapping lib])
      (node "src" "dir" [main, .mapping lib]) :=
    @Redeclared.here [_, _] [] (node "lib" "file" []) lib [] [main] [] (by decide +kernel)
  have h : Redeclared document edited := @Redeclared.item [_, _] [] _ _ [] [] hinner
  have ht : (parseTree document).outcome = .ok t := by decide +kernel
  have hu : (parseTree edited).outcome = .ok u := by decide +kernel
  obtain ⟨u', hu', hcount, hcompare⟩ := last_declaration_counts.2 document edited h t ht
  obtain rfl : u = u' := Except.ok.inj (hu.symm.trans hu')
  refine ⟨h, ht, hu, by decide, hcount, ?_⟩
  rw [hcompare a]
  decide

end Specification

end LayoutCheck
