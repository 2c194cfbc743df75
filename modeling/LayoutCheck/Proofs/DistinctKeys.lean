import LayoutCheck.Proofs.Declared

/-!
No key occurs twice in a value that was read.

Whatever the tokens are, a mapping is only ever extended by `enter`, so its keys stay distinct
(`PartialMapping.Sound.add`). `Compose.Yields` says what a reading leaves in its value and in the
composer; each way of reading has one lemma about it, from what holds of those that it calls
(`Reads`), and they hold together by induction on the fuel (`reads`).
-/

namespace LayoutCheck.Yaml

namespace Value

/-- In no mapping a key occurs twice, neither in the value nor anywhere below. -/
inductive KeysDistinct : Value → Prop where
  | scalar (s : Scalar) : KeysDistinct (.scalar s)
  | sequence {items : List Value} : (∀ v ∈ items, KeysDistinct v) → KeysDistinct (.sequence items)
  | mapping {entries : Entries} : entries.Distinct → (∀ e ∈ entries, KeysDistinct e.2) →
      KeysDistinct (.mapping entries)
  | tagged {handle suffix : String} {v : Value} : KeysDistinct v →
      KeysDistinct (.tagged handle suffix v)

@[simp] theorem keysDistinct_scalar (s : Scalar) : KeysDistinct (.scalar s) := .scalar s

@[simp] theorem keysDistinct_sequence {items : List Value} :
    KeysDistinct (.sequence items) ↔ ∀ v ∈ items, KeysDistinct v :=
  ⟨fun h => by cases h; assumption, .sequence⟩

@[simp] theorem keysDistinct_mapping {entries : Entries} :
    KeysDistinct (.mapping entries) ↔
      entries.Distinct ∧ ∀ e ∈ entries, KeysDistinct e.2 :=
  ⟨fun h => by cases h; constructor <;> assumption, fun h => .mapping h.1 h.2⟩

/-- A new value of a key leaves the keys distinct. -/
theorem KeysDistinct.enter {entries : Entries} {v : Value} (h : KeysDistinct (.mapping entries))
    (hv : v.KeysDistinct) (key : Value) : KeysDistinct (.mapping (entries.enter key v)) := by
  obtain ⟨hdistinct, hvalues⟩ := keysDistinct_mapping.mp h
  refine .mapping (Entries.distinct_enter hdistinct key v) fun e he => ?_
  rcases List.mem_append.mp he with he | he
  · exact hvalues e (List.mem_filter.mp he).1
  · obtain rfl := List.mem_singleton.mp he
    exact hv

end Value

open Value (KeysDistinct)

variable {α β : Type} {P : α → Prop} {Q : β → Prop}

namespace PartialMapping

def Sound (m : PartialMapping) : Prop := m.toValue.KeysDistinct

theorem sound_empty : empty.Sound := .mapping Entries.distinct_nil (List.forall_mem_nil _)

theorem Sound.add {m : PartialMapping} {v : Value} (h : m.Sound) (hv : v.KeysDistinct) :
    (m.add v).Sound := by
  unfold PartialMapping.add
  split
  · exact KeysDistinct.enter h hv _
  · split
    · exact h
    · exact h

/-- A pair is added in two steps. -/
theorem Sound.add_pair {m : PartialMapping} {key v : Value} (h : m.Sound)
    (hkey : key.KeysDistinct) (hv : v.KeysDistinct) : ((m.add key).add v).Sound :=
  (h.add hkey).add hv

end PartialMapping

namespace Compose

/-! ## What a reading yields -/

def Sound (c : Composer) : Prop := ∀ p ∈ c.values, KeysDistinct p.2

/-- If the reading succeeds, the predicate holds of its value, and the anchors are kept sound. -/
def Yields (x : Compose α) (P : α → Prop) : Prop :=
  ∀ c, Sound c → ∀ a c', x.run c = .ok (a, c') → P a ∧ Sound c'

theorem yields_pure {a : α} (h : P a) : (pure a : Compose α).Yields P := by
  intro c hc b c' hrun
  obtain ⟨rfl, rfl⟩ := Prod.mk.inj (Except.ok.inj hrun)
  exact ⟨h, hc⟩

theorem yields_fail (problem : Problem) : (fail problem : Compose α).Yields P := by
  intro c hc b c' hrun
  cases hrun

theorem Yields.bind {x : Compose α} {f : α → Compose β} (hx : x.Yields P)
    (hf : ∀ a, P a → (f a).Yields Q) : (x >>= f).Yields Q := by
  intro c hc b c' hrun
  rw [StateT.run_bind] at hrun
  obtain ⟨⟨a, d⟩, hfirst, hrest⟩ := Attempt.exists_of_bind_eq_ok hrun
  obtain ⟨ha, hd⟩ := hx c hc a d hfirst
  exact hf a ha d hd b c' hrest

abbrev Keeps (x : Compose α) : Prop := x.Yields fun _ => True

theorem Keeps.bind {x : Compose α} {f : α → Compose β} (hx : x.Keeps) (hf : ∀ a, (f a).Yields Q) :
    (x >>= f).Yields Q :=
  Yields.bind hx fun a _ => hf a

theorem yields_get : (get : Compose Composer).Yields Sound := by
  intro c hc b c' hrun
  obtain ⟨rfl, rfl⟩ := Prod.mk.inj (Except.ok.inj hrun)
  exact ⟨hc, hc⟩

theorem keeps_set {c : Composer} (h : Sound c) : (set c : Compose Unit).Keeps := by
  intro _ _ _ c' hrun
  obtain ⟨_, rfl⟩ := Prod.mk.inj (Except.ok.inj hrun)
  exact ⟨trivial, h⟩

theorem keeps_modify {f : Composer → Composer} (h : ∀ c, Sound c → Sound (f c)) :
    (modify f : Compose Unit).Keeps := by
  intro c hc _ c' hrun
  obtain ⟨_, rfl⟩ := Prod.mk.inj (Except.ok.inj hrun)
  exact ⟨trivial, h c hc⟩

/-! ## Tokens, anchors and tags -/

theorem keeps_peek : peek.Keeps := yields_get.bind fun _ _ => yields_pure trivial

theorem keeps_skip : skip.Keeps := keeps_modify fun _ hc => hc

theorem keeps_nextIs (tokens : List Token) : (nextIs tokens).Keeps :=
  keeps_peek.bind fun _ => yields_pure trivial

theorem keeps_resolveTag (handle suffix : String) : (resolveTag handle suffix).Keeps := by
  refine yields_get.bind fun c _ => ?_
  split
  · exact yields_pure trivial
  · split
    · exact yields_pure trivial
    · split
      · exact yields_fail _
      · exact yields_pure trivial

theorem keeps_declareAnchor (name : String) : (declareAnchor name).Keeps := by
  refine yields_get.bind fun c hc => ?_
  exact Keeps.bind (keeps_set hc) fun _ => yields_pure trivial

theorem yields_aliasValue (name : String) : (aliasValue name).Yields KeysDistinct := by
  refine yields_get.bind fun c hc => ?_
  split
  · rename_i number _
    refine yields_pure ?_
    cases hv : c.values.lookup number with
    | none => exact .scalar _
    | some v =>
      obtain ⟨before, after, hvalues, _⟩ := List.lookup_eq_some_iff.mp hv
      have hmem : (number, v) ∈ c.values := by simp [hvalues]
      exact hc _ hmem
  · exact yields_fail _

theorem keeps_properties : properties.Keeps := by
  refine keeps_peek.bind fun _ => ?_
  split
  · refine keeps_skip.bind fun _ => ?_
    refine (keeps_declareAnchor _).bind fun _ => keeps_peek.bind fun _ => ?_
    split
    · exact keeps_skip.bind fun _ => (keeps_resolveTag _ _).bind fun _ => yields_pure trivial
    · exact yields_pure trivial
  · refine keeps_skip.bind fun _ => ?_
    refine (keeps_resolveTag _ _).bind fun _ => keeps_peek.bind fun _ => ?_
    split
    · exact keeps_skip.bind fun _ => (keeps_declareAnchor _).bind fun _ => yields_pure trivial
    · exact yields_pure trivial
  · exact yields_pure trivial

theorem Properties.keysDistinct_mark {v : Value} (p : Properties) (hv : v.KeysDistinct) :
    (p.mark v).KeysDistinct := by
  unfold Properties.mark
  split
  · split
    · exact hv
    · exact .tagged hv
  · exact hv

theorem Properties.keysDistinct_scalar (p : Properties) (presentation : Presentation)
    (text : String) : (p.scalar presentation text).KeysDistinct := by
  cases presentation <;> exact .scalar _

theorem Properties.yields_complete {v : Value} (p : Properties) (hv : v.KeysDistinct) :
    (p.complete v).Yields KeysDistinct := by
  have hmark : (p.mark v).KeysDistinct := p.keysDistinct_mark hv
  unfold Properties.complete
  dsimp only
  split
  · refine Keeps.bind (keeps_modify fun c hc => ?_) fun _ => yields_pure hmark
    exact List.forall_mem_cons.mpr ⟨hmark, hc⟩
  · exact yields_pure hmark

theorem yields_emptyNode (p : Properties) : (emptyNode p).Yields KeysDistinct := by
  unfold emptyNode
  split
  · exact p.yields_complete (p.keysDistinct_scalar _ _)
  · exact yields_fail _

theorem keysDistinct_absent : absent.KeysDistinct := .scalar _

/-! ## Nodes -/

structure Reads (fuel : Nat) : Prop where
  node (inBlock unindented : Bool) : (node fuel inBlock unindented).Yields KeysDistinct
  nodeUnless (ends : List Token) (inBlock unindented : Bool) :
    (nodeUnless fuel ends inBlock unindented).Yields KeysDistinct
  pairValue (ends : List Token) (inBlock : Bool) :
    (pairValue fuel ends inBlock).Yields KeysDistinct
  blockItems {items : List Value} : (∀ v ∈ items, v.KeysDistinct) →
    (blockItems fuel items).Yields (∀ v ∈ ·, v.KeysDistinct)
  unindentedItems {items : List Value} : (∀ v ∈ items, v.KeysDistinct) →
    (unindentedItems fuel items).Yields (∀ v ∈ ·, v.KeysDistinct)
  blockPairs {m : PartialMapping} : m.Sound → (blockPairs fuel m).Yields KeysDistinct
  flowPairs (first : Bool) {m : PartialMapping} : m.Sound →
    (flowPairs fuel first m).Yields KeysDistinct
  flowItems (first : Bool) {items : List Value} : (∀ v ∈ items, v.KeysDistinct) →
    (flowItems fuel first items).Yields (∀ v ∈ ·, v.KeysDistinct)
  singlePair : (singlePair fuel).Yields KeysDistinct

variable {fuel : Nat} {items : List Value} {m : PartialMapping}

theorem Reads.node_succ (h : Reads fuel) (inBlock unindented : Bool) :
    (Compose.node (fuel + 1) inBlock unindented).Yields KeysDistinct := by
  rw [Compose.node]
  refine keeps_peek.bind fun _ => ?_
  split
  · exact keeps_skip.bind fun _ => yields_aliasValue _
  refine keeps_properties.bind fun p => keeps_peek.bind fun _ => ?_
  split
  · exact keeps_skip.bind fun _ => p.yields_complete (p.keysDistinct_scalar _ _)
  · refine keeps_skip.bind fun _ => (h.flowItems true (by simp)).bind fun _ hitems => ?_
    exact p.yields_complete (.sequence hitems)
  · refine keeps_skip.bind fun _ => (h.flowPairs true PartialMapping.sound_empty).bind ?_
    exact fun _ => p.yields_complete
  · split
    · exact (h.unindentedItems (by simp)).bind fun _ hitems => p.yields_complete (.sequence hitems)
    · exact yields_emptyNode p
  · split
    · refine keeps_skip.bind fun _ => (h.blockItems (by simp)).bind fun _ hitems => ?_
      exact p.yields_complete (.sequence hitems)
    · exact yields_emptyNode p
  · split
    · refine keeps_skip.bind fun _ => (h.blockPairs PartialMapping.sound_empty).bind ?_
      exact fun _ => p.yields_complete
    · exact yields_emptyNode p
  · exact yields_emptyNode p

theorem Reads.nodeUnless_succ (h : Reads fuel) (ends : List Token) (inBlock unindented : Bool) :
    (Compose.nodeUnless (fuel + 1) ends inBlock unindented).Yields KeysDistinct := by
  rw [Compose.nodeUnless]
  refine (keeps_nextIs ends).bind fun _ => ?_
  split
  · exact yields_pure keysDistinct_absent
  · exact h.node inBlock unindented

theorem Reads.pairValue_succ (h : Reads fuel) (ends : List Token) (inBlock : Bool) :
    (Compose.pairValue (fuel + 1) ends inBlock).Yields KeysDistinct := by
  rw [Compose.pairValue]
  refine (keeps_nextIs _).bind fun _ => ?_
  split
  · exact keeps_skip.bind fun _ => h.nodeUnless ends inBlock inBlock
  · exact yields_pure keysDistinct_absent

theorem Reads.blockItems_succ (h : Reads fuel) (hitems : ∀ v ∈ items, v.KeysDistinct) :
    (Compose.blockItems (fuel + 1) items).Yields (∀ v ∈ ·, v.KeysDistinct) := by
  rw [Compose.blockItems]
  refine keeps_peek.bind fun _ => ?_
  split
  · exact keeps_skip.bind fun _ => yields_pure (by simpa using hitems)
  · refine keeps_skip.bind fun _ => (h.nodeUnless _ _ _).bind fun item hitem => ?_
    exact h.blockItems (List.forall_mem_cons.mpr ⟨hitem, hitems⟩)
  · exact yields_fail _

theorem Reads.unindentedItems_succ (h : Reads fuel) (hitems : ∀ v ∈ items, v.KeysDistinct) :
    (Compose.unindentedItems (fuel + 1) items).Yields (∀ v ∈ ·, v.KeysDistinct) := by
  rw [Compose.unindentedItems]
  refine (keeps_nextIs _).bind fun _ => ?_
  split
  · refine keeps_skip.bind fun _ => (h.nodeUnless _ _ _).bind fun item hitem => ?_
    exact h.unindentedItems (List.forall_mem_cons.mpr ⟨hitem, hitems⟩)
  · exact yields_pure (by simpa using hitems)

theorem Reads.blockPairs_succ (h : Reads fuel) (hm : m.Sound) :
    (Compose.blockPairs (fuel + 1) m).Yields KeysDistinct := by
  rw [Compose.blockPairs]
  refine keeps_peek.bind fun _ => ?_
  split
  · exact keeps_skip.bind fun _ => yields_pure hm
  · refine keeps_skip.bind fun _ => (h.nodeUnless _ _ _).bind fun key hkey => ?_
    refine (h.pairValue _ _).bind fun value hvalue => ?_
    exact h.blockPairs (hm.add_pair hkey hvalue)
  · refine (h.pairValue _ _).bind fun value hvalue => ?_
    exact h.blockPairs (hm.add_pair keysDistinct_absent hvalue)
  · exact yields_fail _

/-- Past the first part of a flow collection, a separator comes before the next one. -/
theorem yields_separated {first : Bool} {rest : PUnit → Compose α} (h : ∀ u, (rest u).Yields P) :
    (if !first then do
        if ← nextIs [.flowEntry] then skip >>= rest else fail .entryExpected >>= rest
      else rest ⟨⟩).Yields P := by
  split
  · refine (keeps_nextIs _).bind fun _ => ?_
    split
    · exact keeps_skip.bind h
    · exact Keeps.bind (yields_fail _) h
  · exact h ⟨⟩

theorem Reads.flowPairs_succ (h : Reads fuel) (first : Bool) (hm : m.Sound) :
    (Compose.flowPairs (fuel + 1) first m).Yields KeysDistinct := by
  rw [Compose.flowPairs]
  refine (keeps_nextIs _).bind fun _ => ?_
  split
  · exact keeps_skip.bind fun _ => yields_pure hm
  refine yields_separated fun _ => keeps_peek.bind fun _ => ?_
  split
  · exact keeps_skip.bind fun _ => yields_pure hm
  · refine keeps_skip.bind fun _ => (h.nodeUnless _ _ _).bind fun key hkey => ?_
    refine (h.pairValue _ _).bind fun value hvalue => ?_
    exact h.flowPairs false (hm.add_pair hkey hvalue)
  · refine (h.pairValue _ _).bind fun value hvalue => ?_
    exact h.flowPairs false (hm.add_pair keysDistinct_absent hvalue)
  · refine (h.node _ _).bind fun key hkey => ?_
    exact h.flowPairs false (hm.add_pair hkey keysDistinct_absent)

theorem Reads.flowItems_succ (h : Reads fuel) (first : Bool)
    (hitems : ∀ v ∈ items, v.KeysDistinct) :
    (Compose.flowItems (fuel + 1) first items).Yields (∀ v ∈ ·, v.KeysDistinct) := by
  rw [Compose.flowItems]
  refine (keeps_nextIs _).bind fun _ => ?_
  split
  · exact keeps_skip.bind fun _ => yields_pure (by simpa using hitems)
  refine yields_separated fun _ => keeps_peek.bind fun _ => ?_
  split
  · exact keeps_skip.bind fun _ => yields_pure (by simpa using hitems)
  · refine keeps_skip.bind fun _ => h.singlePair.bind fun pair hpair => ?_
    exact h.flowItems false (List.forall_mem_cons.mpr ⟨hpair, hitems⟩)
  · refine (h.node _ _).bind fun item hitem => ?_
    exact h.flowItems false (List.forall_mem_cons.mpr ⟨hitem, hitems⟩)

theorem Reads.singlePair_succ (h : Reads fuel) :
    (Compose.singlePair (fuel + 1)).Yields KeysDistinct := by
  have hrest {key : Value} (hkey : key.KeysDistinct) : (do
      let value ← Compose.pairValue fuel [.flowEntry, .flowSequenceEnd] false
      return ((PartialMapping.empty.add key).add value).toValue).Yields KeysDistinct :=
    (h.pairValue _ _).bind fun value hvalue =>
      yields_pure (PartialMapping.sound_empty.add_pair hkey hvalue)
  rw [Compose.singlePair]
  refine (keeps_nextIs _).bind fun _ => ?_
  split
  · exact keeps_skip.bind fun _ => hrest keysDistinct_absent
  · exact (h.node _ _).bind fun key hkey => hrest hkey

theorem reads_zero : Reads 0 where
  node _ _ := yields_fail _
  nodeUnless _ _ _ := yields_fail _
  pairValue _ _ := yields_fail _
  blockItems _ := yields_fail _
  unindentedItems _ := yields_fail _
  blockPairs _ := yields_fail _
  flowPairs _ _ _ := yields_fail _
  flowItems _ _ _ := yields_fail _
  singlePair := yields_fail _

theorem Reads.succ (h : Reads fuel) : Reads (fuel + 1) where
  node := h.node_succ
  nodeUnless := h.nodeUnless_succ
  pairValue := h.pairValue_succ
  blockItems := h.blockItems_succ
  unindentedItems := h.unindentedItems_succ
  blockPairs := h.blockPairs_succ
  flowPairs first _ := h.flowPairs_succ first
  flowItems first _ := h.flowItems_succ first
  singlePair := h.singlePair_succ

theorem reads (fuel : Nat) : Reads fuel := by
  induction fuel with
  | zero => exact reads_zero
  | succ fuel ih => exact ih.succ

/-! ## Documents -/

theorem keeps_directives (versioned : Bool) (tokens : List Token) :
    (directives versioned tokens).Keeps := by
  induction tokens generalizing versioned with
  | nil => exact yields_pure trivial
  | cons token rest ih =>
    cases token with
    | versionDirective =>
      rw [directives]
      split
      · exact Keeps.bind (yields_fail _) fun _ =>
          Keeps.bind (keeps_modify fun _ hc => hc) fun _ => ih true
      · exact Keeps.bind (keeps_modify fun _ hc => hc) fun _ => ih true
    | tagDirective handle expansion =>
      rw [directives]
      exact Keeps.bind (keeps_modify fun _ hc => hc) fun _ => ih versioned
    | _ => exact yields_pure trivial

theorem yields_markedDocument (fuel : Nat) : (markedDocument fuel).Yields KeysDistinct := by
  refine yields_get.bind fun _ _ => (keeps_directives _ _).bind fun _ => ?_
  refine (keeps_nextIs _).bind fun _ => ?_
  split
  · refine keeps_skip.bind fun _ => keeps_peek.bind fun _ => ?_
    split
    · exact yields_pure keysDistinct_absent
    · exact yields_pure keysDistinct_absent
    · exact yields_pure keysDistinct_absent
    · split
      · exact yields_pure keysDistinct_absent
      · exact (reads fuel).node _ _
  · exact yields_fail _

theorem yields_documents (fuel : Nat) (unmarked : Bool) {values : List Value}
    (hvalues : ∀ v ∈ values, v.KeysDistinct) :
    (documents fuel unmarked values).Yields (∀ v ∈ ·, v.KeysDistinct) := by
  induction fuel generalizing unmarked values with
  | zero => exact yields_fail _
  | succ fuel ih =>
    rw [documents]
    refine Keeps.bind (keeps_modify fun _ hc => hc) fun _ => keeps_peek.bind fun _ => ?_
    split
    · exact yields_pure (by simpa using hvalues)
    · extract_lets marked next
      have hnext : ∀ value, value.KeysDistinct → (next value).Yields (∀ v ∈ ·, v.KeysDistinct) := by
        intro value hvalue
        have hall : ∀ v ∈ value :: values, v.KeysDistinct :=
          List.forall_mem_cons.mpr ⟨hvalue, hvalues⟩
        refine Keeps.bind (keeps_modify fun _ hc => hc) fun _ => (keeps_nextIs _).bind fun _ => ?_
        split
        · exact ih true hall
        · refine keeps_peek.bind fun _ => ?_
          split
          · exact Keeps.bind (yields_fail _) fun _ => ih false hall
          · exact ih false hall
      split
      · exact ((reads fuel).node _ _).bind hnext
      · exact (yields_markedDocument fuel).bind hnext

end Compose

/-- In no value that is read a key occurs twice in a mapping. -/
theorem keysDistinct_of_readDocuments {text : String} {values : List Value}
    (h : readDocuments text = .ok values) : ∀ v ∈ values, v.KeysDistinct := by
  obtain ⟨tokens, _, h⟩ := Attempt.exists_of_bind_eq_ok h
  obtain ⟨⟨read, c⟩, hrun, h⟩ := Attempt.exists_of_bind_eq_ok h
  obtain rfl := Except.ok.inj h
  exact (Compose.yields_documents _ true (by simp) _ (by simp [Compose.Sound]) _ _ hrun).1

end LayoutCheck.Yaml
