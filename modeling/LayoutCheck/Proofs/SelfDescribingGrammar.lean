import LayoutCheck.Proofs.SelfDescription

/-!
Which documents of nodes that describe themselves declare a tree, and what is said of the others.

`Good` says what a node must be like, and `Fault` what is wrong with one that is not: the first
thing in the order of the checks, with the place where it is found. A value is good or has a fault
(`good_or_fault`). Good nodes are read (`exists_outcome_node`), and the others are refused for their
fault (`outcome_node_of_fault`), so reading does exactly what the two say.
-/

namespace LayoutCheck

open Yaml (Entries Value)

/-- In a list where not everything has a property there is a first element without it. -/
theorem exists_first_of_not_forall {α : Type} {p : α → Prop} {as : List α}
    (h : ¬ ∀ a ∈ as, p a) :
    ∃ before a after, as = before ++ a :: after ∧ (∀ b ∈ before, p b) ∧ ¬ p a := by
  induction as with
  | nil => simp at h
  | cons a as ih =>
    by_cases ha : p a
    · have htail : ¬ ∀ b ∈ as, p b := fun hall => h (List.forall_mem_cons.mpr ⟨ha, hall⟩)
      obtain ⟨before, b, after, rfl, hbefore, hb⟩ := ih htail
      exact ⟨a :: before, b, after, rfl, List.forall_mem_cons.mpr ⟨ha, hbefore⟩, hb⟩
    · exact ⟨[], a, as, rfl, by simp, ha⟩

namespace Specification.SelfDescribing

open Attempt

variable {above : List String} {index : Nat} {entries : Entries} {n type location : String}
  {v : Value} {e : ParseError} {items before after : List Value} {field : Field}

/-! ## What a node must be like -/

/-- Induction over nodes: a mapping may use what holds of the items of its content. -/
@[elab_as_elim]
theorem nodeInduction {P : Value → Prop} (other : ∀ v, (∀ entries, v ≠ .mapping entries) → P v)
    (mapping : ∀ entries, (∀ items, field? entries .content = some (.sequence items) →
      ∀ v ∈ items, P v) → P (.mapping entries)) (v : Value) : P v := by
  suffices h : P v ∧ ∀ items, v = .sequence items → ∀ w ∈ items, P w from h.1
  induction v using Value.induction with
  | scalar s => exact ⟨other _ (by simp), by simp⟩
  | tagged handle suffix v => exact ⟨other _ (by simp), by simp⟩
  | sequence items ih =>
    refine ⟨other _ (by simp), fun _ heq w hw => ?_⟩
    exact (ih w (Value.sequence.inj heq ▸ hw)).1
  | mapping entries ih =>
    refine ⟨mapping entries fun items hitems => ?_, by simp⟩
    obtain ⟨e, he, hvalue⟩ := Option.map_eq_some_iff.mp hitems
    exact (ih e (List.mem_of_find?_eq_some he)).2 items hvalue

def IsText (v : Value) : Prop := ∃ text, v = .string text

structure Named (entries : Entries) (n : String) : Prop where
  name : field? entries .name = some (.string n)
  accepted : isEntryName n

structure Headed (entries : Entries) (n type : String) : Prop extends Named entries n where
  type : field? entries .type = some (.string type)
  description : ∀ v, field? entries .description = some v → IsText v

/-- A node as it should be; only the content of a directory matters. -/
inductive Good : Value → Prop where
  | file {entries : Entries} {n type : String} : Headed entries n type → type ≠ "dir" →
      Good (.mapping entries)
  | empty {entries : Entries} {n : String} : Headed entries n "dir" →
      field? entries .content = none → Good (.mapping entries)
  | directory {entries : Entries} {n : String} {items : List Value} : Headed entries n "dir" →
      field? entries .content = some (.sequence items) → (∀ v ∈ items, Good v) →
        Good (.mapping entries)

/-! ## What is wrong with a node -/

inductive Unreadable (entries : Entries) (field : Field) (location : String) :
    ParseError → Prop where
  | missing : field? entries field = none →
      Unreadable entries field location (.missingField location field)
  | notText {v : Value} : field? entries field = some v → ¬ IsText v →
      Unreadable entries field location (.invalidField location field .string)

/-- The position of a node without a name: at the top, or in the list of the node that the names
lead to. -/
def position : List String → Nat → String
  | [], _ => "<root>"
  | n :: ns, index => "/".intercalate (n :: ns) ++ "/content[" ++ Nat.repr index ++ "]"

/-- The first thing that is wrong with a value as a node, in the node that the names lead to. -/
inductive Fault : List String → Nat → Value → ParseError → Prop where
  | notMapping {above : List String} {index : Nat} {v : Value} :
      (∀ entries, v ≠ .mapping entries) →
        Fault above index v (.invalidField (position above index) .content .nodeMappings)
  | name {above : List String} {index : Nat} {entries : Entries} {e : ParseError} :
      Unreadable entries .name (position above index) e → Fault above index (.mapping entries) e
  | refusedName {above : List String} {index : Nat} {entries : Entries} {n : String} :
      field? entries .name = some (.string n) → ¬ isEntryName n →
        Fault above index (.mapping entries) (.invalidName (position above index) n)
  | type {above : List String} {index : Nat} {entries : Entries} {n : String} {e : ParseError} :
      Named entries n → Unreadable entries .type ("/".intercalate (above ++ [n])) e →
        Fault above index (.mapping entries) e
  | description {above : List String} {index : Nat} {entries : Entries} {n type : String}
      {v : Value} : Named entries n → field? entries .type = some (.string type) →
      field? entries .description = some v → ¬ IsText v →
        Fault above index (.mapping entries)
          (.invalidField ("/".intercalate (above ++ [n])) .description .string)
  | notList {above : List String} {index : Nat} {entries : Entries} {n : String} {v : Value} :
      Headed entries n "dir" → field? entries .content = some v → (∀ items, v ≠ .sequence items) →
        Fault above index (.mapping entries)
          (.invalidField ("/".intercalate (above ++ [n])) .content .nodeList)
  | item {above : List String} {index : Nat} {entries : Entries} {n : String}
      {before after : List Value} {v : Value} {e : ParseError} : Headed entries n "dir" →
      field? entries .content = some (.sequence (before ++ v :: after)) → (∀ b ∈ before, Good b) →
      Fault (above ++ [n]) before.length v e → Fault above index (.mapping entries) e

theorem readable_or_unreadable (entries : Entries) (field : Field) (location : String) :
    (∃ text, field? entries field = some (.string text)) ∨
      ∃ e, Unreadable entries field location e := by
  cases hv : field? entries field with
  | none => exact .inr ⟨_, .missing hv⟩
  | some v =>
    by_cases htext : IsText v
    · obtain ⟨text, rfl⟩ := htext
      exact .inl ⟨text, rfl⟩
    · exact .inr ⟨_, .notText hv htext⟩

theorem headed_or_fault (above : List String) (index : Nat) (entries : Entries) :
    (∃ n type, Headed entries n type) ∨ ∃ e, Fault above index (.mapping entries) e := by
  obtain ⟨n, hname⟩ | ⟨e, he⟩ := readable_or_unreadable entries .name (position above index)
  case inr => exact .inr ⟨e, .name he⟩
  by_cases hn : isEntryName n
  case neg => exact .inr ⟨_, .refusedName hname hn⟩
  have hnamed : Named entries n := ⟨hname, hn⟩
  obtain ⟨type, htype⟩ | ⟨e, he⟩ :=
    readable_or_unreadable entries .type ("/".intercalate (above ++ [n]))
  case inr => exact .inr ⟨e, .type hnamed he⟩
  by_cases hdescription : ∀ v, field? entries .description = some v → IsText v
  case pos => exact .inl ⟨n, type, hnamed, htype, hdescription⟩
  obtain ⟨v, hdescription⟩ := not_forall.mp hdescription
  obtain ⟨hv, hnot⟩ := Classical.not_imp.mp hdescription
  exact .inr ⟨_, .description hnamed htype hv hnot⟩

/-- A value is good, or there is something wrong with it. -/
theorem good_or_fault (v : Value) (above : List String) (index : Nat) :
    Good v ∨ ∃ e, Fault above index v e := by
  induction v using nodeInduction generalizing above index with
  | other v hv => exact .inr ⟨_, .notMapping hv⟩
  | mapping entries ih =>
    obtain ⟨n, type, hheaded⟩ | hfault := headed_or_fault above index entries
    case inr => exact .inr hfault
    by_cases htype : type = "dir"
    case neg => exact .inl (.file hheaded htype)
    subst htype
    cases hcontent : field? entries .content with
    | none => exact .inl (.empty hheaded hcontent)
    | some v =>
      by_cases hlist : ∃ items, v = .sequence items
      case neg => exact .inr ⟨_, .notList hheaded hcontent (by simpa using hlist)⟩
      obtain ⟨items, rfl⟩ := hlist
      by_cases hgood : ∀ w ∈ items, Good w
      case pos => exact .inl (.directory hheaded hcontent hgood)
      obtain ⟨before, w, after, rfl, hbefore, hw⟩ := exists_first_of_not_forall hgood
      have hmem : w ∈ before ++ w :: after := by simp
      obtain ⟨e, he⟩ := (ih _ hcontent w hmem (above ++ [n]) before.length).resolve_left hw
      exact .inr ⟨e, .item hheaded hcontent hbefore he⟩

/-! ## Reading good nodes -/

theorem exists_optionalText (h : ∀ v, field? entries field = some v → IsText v)
    (location : String) : ∃ text, optionalText entries field location = .ok text := by
  unfold optionalText
  cases hv : field? entries field with
  | none => exact ⟨none, rfl⟩
  | some v =>
    obtain ⟨text, rfl⟩ := h v hv
    exact ⟨some text, rfl⟩

/-- With a name as it should be, the type and the description are read. -/
theorem readHeader_of_named (h : Named entries n) (place : Place) :
    readHeader place entries = do
      let type ← requiredText entries .type (namedPlaceText n place)
      let description ← optionalText entries .description (namedPlaceText n place)
      return ⟨n, type = "dir", description, namedPlaceText n place⟩ := by
  simp only [readHeader, requiredText_of_field? h.name, checkEntryName_of_isEntryName h.accepted,
    bind, Except.bind]
  rfl

theorem exists_readHeader (h : Headed entries n type) (place : Place) :
    ∃ d, readHeader place entries =
      .ok ⟨n, type = "dir", d, namedPlaceText n place⟩ := by
  obtain ⟨d, hd⟩ := exists_optionalText h.description (namedPlaceText n place)
  refine ⟨d, ?_⟩
  rw [readHeader_of_named h.toNamed, requiredText_of_field? h.type, hd]
  rfl

theorem exists_readHeader_directory (h : Headed entries n "dir") (place : Place) :
    ∃ d, readHeader place entries = .ok ⟨n, true, d, namedPlaceText n place⟩ := by
  obtain ⟨d, hd⟩ := exists_readHeader h place
  rw [decide_eq_true rfl] at hd
  exact ⟨d, hd⟩

theorem content_of_field? (h : field? entries .content = some v) (location : String) :
    content location entries = contentValue location v := by
  rw [content_eq, h]

theorem exists_outcome_nodes
    (h : ∀ v ∈ items, ∀ place, ∃ t, (node place v).outcome = .ok t) (index : Nat) :
    ∃ ts, (nodes location index items).outcome = .ok ts := by
  induction items generalizing index with
  | nil => exact ⟨[], rfl⟩
  | cons v vs ih =>
    obtain ⟨hv, hvs⟩ := List.forall_mem_cons.mp h
    obtain ⟨t, ht⟩ := hv (some (location, index))
    obtain ⟨ts, hts⟩ := ih hvs (index + 1)
    refine ⟨t :: ts, ?_⟩
    rw [nodes, outcome_bind_of_ok ht, outcome_bind_of_ok hts, outcome_pure]

theorem exists_outcome_file (h : Header) (entries : Entries) :
    ∃ t, (file h entries).outcome = .ok t := by
  unfold file
  split
  · exact ⟨_, rfl⟩
  · exact ⟨_, rfl⟩

/-- A directory is read as soon as its content is. -/
theorem exists_outcome_directory {place : Place} (h : Headed entries n "dir")
    (hcontent : ∃ cs, (content (namedPlaceText n place) entries).outcome = .ok cs) :
    ∃ t, (node place (.mapping entries)).outcome = .ok t := by
  obtain ⟨d, hheader⟩ := exists_readHeader_directory h place
  obtain ⟨cs, hcs⟩ := hcontent
  rw [node, outcome_except_bind_of_ok hheader, if_pos rfl, outcome_bind_of_ok hcs]
  exact ⟨_, rfl⟩

/-- Good nodes are read, wherever they stand. -/
theorem exists_outcome_node (h : Good v) (place : Place) :
    ∃ t, (node place v).outcome = .ok t := by
  induction h generalizing place with
  | @file entries n type hheaded htype =>
    obtain ⟨d, hheader⟩ := exists_readHeader hheaded place
    rw [decide_eq_false htype] at hheader
    rw [node, outcome_except_bind_of_ok hheader, if_neg (by simp)]
    exact exists_outcome_file _ _
  | empty hheaded hcontent =>
    refine exists_outcome_directory hheaded ?_
    rw [content_eq, hcontent]
    exact ⟨[], rfl⟩
  | directory hheaded hcontent _ ih =>
    refine exists_outcome_directory hheaded ?_
    rw [content_of_field? hcontent]
    exact exists_outcome_nodes ih 0

/-! ## Refusing the others -/

theorem optionalText_of_not_text (hv : field? entries field = some v) (hnot : ¬ IsText v)
    (location : String) :
    optionalText entries field location = .error (.invalidField location field .string) := by
  rw [optionalText, hv]
  split
  · contradiction
  · rename_i text heq
    obtain rfl := Option.some.inj heq
    exact absurd ⟨text, rfl⟩ hnot
  · rfl

theorem Unreadable.requiredText (h : Unreadable entries field location e) :
    requiredText entries field location = .error e := by
  unfold SelfDescribing.requiredText
  cases h with
  | missing hnone =>
    rw [optionalText, hnone]
    rfl
  | notText hv hnot =>
    rw [optionalText_of_not_text hv hnot]
    rfl

def placeOf : List String → Nat → Place
  | [], _ => none
  | n :: ns, index => some ("/".intercalate (n :: ns), index)

theorem placeText_placeOf (above : List String) (index : Nat) :
    placeText (placeOf above index) = position above index := by
  cases above <;> rfl

theorem namedPlaceText_placeOf (n : String) (above : List String) (index : Nat) :
    namedPlaceText n (placeOf above index) = "/".intercalate (above ++ [n]) := by
  cases above with
  | nil => simp [placeOf, namedPlaceText]
  | cons m ms =>
    rw [String.intercalate_append_of_ne_nil (by simp) (by simp), String.intercalate_singleton]
    rfl

theorem placeOf_concat (above : List String) (n : String) (index : Nat) :
    placeOf (above ++ [n]) index = some ("/".intercalate (above ++ [n]), index) := by
  cases above <;> rfl

theorem outcome_node_of_header {place : Place} (h : readHeader place entries = .error e) :
    (node place (.mapping entries)).outcome = .error e := by
  rw [node, outcome_except_bind_of_error h]

theorem outcome_node_of_content {place : Place} (h : Headed entries n "dir")
    (hcontent : (content (namedPlaceText n place) entries).outcome = .error e) :
    (node place (.mapping entries)).outcome = .error e := by
  obtain ⟨d, hheader⟩ := exists_readHeader_directory h place
  rw [node, outcome_except_bind_of_ok hheader, if_pos rfl, outcome_bind_of_error hcontent]

/-- A list is refused for the first of its items that is. -/
theorem outcome_nodes_of_error
    (hbefore : ∀ b ∈ before, ∀ place, ∃ t, (node place b).outcome = .ok t)
    (hv : (node (some (location, index + before.length)) v).outcome = .error e) :
    (nodes location index (before ++ v :: after)).outcome = .error e := by
  induction before generalizing index with
  | nil =>
    rw [List.length_nil, Nat.add_zero] at hv
    rw [List.nil_append, nodes, outcome_bind_of_error hv]
  | cons b bs ih =>
    obtain ⟨hb, hbs⟩ := List.forall_mem_cons.mp hbefore
    obtain ⟨t, ht⟩ := hb (some (location, index))
    have hrest : (nodes location (index + 1) (bs ++ v :: after)).outcome = .error e := by
      refine ih hbs ?_
      rwa [List.length_cons, Nat.add_comm bs.length, ← Nat.add_assoc] at hv
    rw [List.cons_append, nodes, outcome_bind_of_ok ht, outcome_bind_of_error hrest]

/-- A value is refused for its fault. -/
theorem outcome_node_of_fault (h : Fault above index v e) :
    (node (placeOf above index) v).outcome = .error e := by
  induction h with
  | @notMapping above index v hv =>
    rw [← placeText_placeOf]
    cases v with
    | mapping entries => exact absurd rfl (hv entries)
    | scalar s => rw [node, outcome_throw]
    | sequence items => rw [node, outcome_throw]
    | tagged handle suffix v => rw [node, outcome_throw]
  | name he =>
    rw [← placeText_placeOf] at he
    refine outcome_node_of_header ?_
    rw [readHeader, he.requiredText]
    rfl
  | @refusedName above index entries n hname hn =>
    rw [← placeText_placeOf]
    refine outcome_node_of_header ?_
    simp only [readHeader, requiredText_of_field? hname, checkEntryName_of_not_isEntryName hn, bind,
      Except.bind]
  | @type above index entries n e hnamed he =>
    rw [← namedPlaceText_placeOf n above index] at he
    refine outcome_node_of_header ?_
    rw [readHeader_of_named hnamed, he.requiredText]
    rfl
  | @description above index entries n type v hnamed htype hv hnot =>
    rw [← namedPlaceText_placeOf n above index]
    refine outcome_node_of_header ?_
    rw [readHeader_of_named hnamed, requiredText_of_field? htype, optionalText_of_not_text hv hnot]
    rfl
  | @notList above index entries n v hheaded hcontent hlist =>
    rw [← namedPlaceText_placeOf n above index]
    refine outcome_node_of_content hheaded ?_
    rw [content_of_field? hcontent]
    cases v with
    | sequence items => exact absurd rfl (hlist items)
    | scalar s => rw [contentValue, outcome_throw]
    | mapping entries => rw [contentValue, outcome_throw]
    | tagged handle suffix v => rw [contentValue, outcome_throw]
  | @item above index entries n before after v e hheaded hcontent hbefore _ ih =>
    refine outcome_node_of_content hheaded ?_
    rw [content_of_field? hcontent, namedPlaceText_placeOf]
    rw [placeOf_concat, ← Nat.zero_add before.length] at ih
    exact outcome_nodes_of_error (fun b hb => exists_outcome_node (hbefore b hb)) ih

/-! ## Documents -/

@[simp] theorem name_attach (h : Header) (t : Tree) : (h.attach t).name = t.name := by
  unfold Header.attach
  split <;> simp

@[simp] theorem kind_attach (h : Header) (t : Tree) : (h.attach t).kind = t.kind := by
  unfold Header.attach
  split <;> simp

/-- What is read has the name that the node gives, and the kind that its type says. -/
theorem yields_node_of_header {place : Place} {h : Header} (hr : readHeader place entries = .ok h) :
    (node place (.mapping entries)).Yields fun t =>
      t.name = h.name ∧ t.kind = if h.isDirectory then .directory else .file := by
  have hheader : (liftM (readHeader place entries) : Parse Header).Yields (· = h) :=
    yields_except fun a ha => Except.ok.inj (ha.symm.trans hr)
  rw [node]
  refine hheader.bind ?_
  rintro h rfl
  split
  · refine yields_bind fun cs => ?_
    have hbranch : (liftM (Tree.branchLogged h.name cs) : Parse Tree).Yields fun t =>
        t.name = h.name ∧ t.kind = .directory := yields_logged ⟨rfl, rfl⟩
    refine hbranch.bind ?_
    rintro t ⟨hn, hk⟩
    exact yields_pure (by simp [hn, hk])
  · unfold file
    split
    · exact yields_bind fun _ => yields_pure (by simp [Tree.leaf])
    · exact yields_pure (by simp [Tree.leaf])

theorem Good.exists_headed {m : Entries} (h : Good (.mapping m)) :
    ∃ n type, Headed m n type := by
  cases h with
  | file hheaded => exact ⟨_, _, hheaded⟩
  | empty hheaded => exact ⟨_, _, hheaded⟩
  | directory hheaded => exact ⟨_, _, hheaded⟩

theorem Good.not_fault (h : Good v) : ¬ Fault above index v e := by
  intro he
  obtain ⟨t, ht⟩ := exists_outcome_node h (placeOf above index)
  cases ht.symm.trans (outcome_node_of_fault he)

theorem outcome_parseTree_of_fault {m : Entries} (h : Fault [] 0 (.mapping m) e) :
    (parseTree m).outcome = .error e := by
  have hnode : (node none (.mapping m)).outcome = .error e := outcome_node_of_fault h
  rw [parseTree, outcome_bind_of_error hnode]

/-- At the top a good node is read if it is a directory, and refused by its name if it is not. -/
theorem outcome_parseTree_of_good {m : Entries} (h : Good (.mapping m)) (hm : Headed m n type) :
    if type = "dir" then ∃ t, (parseTree m).outcome = .ok t
    else (parseTree m).outcome = .error (.rootNotDirectory n) := by
  obtain ⟨t, ht⟩ := exists_outcome_node h none
  obtain ⟨d, hheader⟩ := exists_readHeader hm none
  obtain ⟨hname, hkind⟩ := yields_node_of_header hheader t ht
  rw [parseTree, outcome_bind_of_ok ht]
  split
  · rename_i htype
    have hdirectory : t.isDirectory := by simpa [Tree.isDirectory, htype] using hkind
    rw [if_pos hdirectory]
    exact ⟨t, rfl⟩
  · rename_i htype
    have hfile : ¬ t.isDirectory := by simp [Tree.isDirectory, hkind, htype]
    rw [if_neg hfile, hname, outcome_throw]

/--
A document of nodes that describe themselves is read exactly if it is a good node of the type of
directories. A good node of another type is refused by its name, every other node for the first
thing that is wrong with it.
-/
theorem selfDescribing_grammar (m : Entries) :
    ((∃ t, (parseTree m).outcome = .ok t) ↔
      Good (.mapping m) ∧ field? m .type = some (.string "dir")) ∧
    ∀ e, (parseTree m).outcome = .error e ↔
      Fault [] 0 (.mapping m) e ∨
        Good (.mapping m) ∧ ∃ n type, field? m .name = some (.string n) ∧
          field? m .type = some (.string type) ∧ type ≠ "dir" ∧ e = .rootNotDirectory n := by
  obtain hgood | ⟨e, he⟩ := good_or_fault (.mapping m) [] 0
  · obtain ⟨n, type, hheaded⟩ := hgood.exists_headed
    have hfault : ∀ e, ¬ Fault [] 0 (.mapping m) e := fun e => hgood.not_fault
    have hread := outcome_parseTree_of_good hgood hheaded
    split at hread
    · rename_i htype
      obtain ⟨t, ht⟩ := hread
      simp [ht, hgood, hfault, hheaded.type, htype]
    · rename_i htype
      simp [hread, hgood, hfault, hheaded.name, hheaded.type, htype, eq_comm]
  · have hgood : ¬ Good (.mapping m) := fun h => h.not_fault he
    have hread := outcome_parseTree_of_fault he
    have hunique : ∀ e', Fault [] 0 (.mapping m) e' → e = e' := fun e' he' =>
      Except.error.inj (hread.symm.trans (outcome_parseTree_of_fault he'))
    refine ⟨by simp [hread, hgood], fun e' => ?_⟩
    rw [hread, Except.error.injEq, or_iff_left (fun h => hgood h.1)]
    exact ⟨fun h => h ▸ he, hunique e'⟩

/-- The second item has no name, and the third, which is no mapping, is not looked at. -/
example :
    let module : Value :=
      .mapping [(.string "name", .string "mod.rs"), (.string "type", .string "file")]
    (parseTree [(.string "name", .string "src"), (.string "type", .string "dir"),
      (.string "content", .sequence [module, .mapping [(.string "type", .string "dir")],
        .string "lib"])]).outcome = .error (.missingField "src/content[1]" .name) := by
  decide +kernel

end Specification.SelfDescribing

end LayoutCheck
