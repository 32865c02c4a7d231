import Mathlib.Tactic.Lemma
import Requirements.Document.Yaml
import Requirements.Proofs.Document.Checked

/-!
# The mappings of a document that was read

A later entry of a mapping takes the place of an earlier one with the same key, so that no mapping
of a document that was read has a text as a key twice.
-/

namespace Requirements

namespace Yaml

open Document (WellKeyed DistinctKeys)

/-! ### Entries -/

/-- Putting an entry into a mapping brings no other entry with it. -/
lemma mem_putEntry {key : Scalar} {value : Document} {entries : List (Scalar × Document)}
    {e : Scalar × Document} (h : e ∈ putEntry key value entries) :
    e = (key, value) ∨ e ∈ entries := by
  induction entries with
  | nil => exact .inl (List.mem_singleton.mp h)
  | cons e' entries ih =>
    rw [putEntry] at h
    split at h
    · rcases List.mem_cons.mp h with rfl | h
      · exact .inl rfl
      · exact .inr (List.mem_cons_of_mem _ h)
    · rcases List.mem_cons.mp h with rfl | h
      · exact .inr List.mem_cons_self
      · exact (ih h).imp_right (List.mem_cons_of_mem _)

/-- Putting an entry under a key that is there replaces the old one, so keys stay distinct. -/
lemma distinctKeys_putEntry (key : Scalar) (value : Document)
    {entries : List (Scalar × Document)} (h : DistinctKeys entries) :
    DistinctKeys (putEntry key value entries) := by
  induction entries with
  | nil => exact List.pairwise_singleton _ _
  | cons e entries ih =>
    obtain ⟨he, hentries⟩ := List.pairwise_cons.mp h
    rw [putEntry]
    split
    · rename_i hsame
      refine List.pairwise_cons.mpr ⟨fun e' he' k hk => ?_, hentries⟩
      obtain rfl : key = .text k := hk
      exact he e' he' k (Scalar.beq_text_iff.mp hsame)
    · rename_i hother
      refine List.pairwise_cons.mpr ⟨fun e' he' k hk => ?_, ih hentries⟩
      rcases mem_putEntry he' with rfl | he'
      · rintro rfl
        exact hother (Scalar.beq_text_iff.mpr hk)
      · exact he e' he' k hk

/-- The mapping of entries is a dictionary. -/
theorem wellKeyed_mappingOf {entries : List (Scalar × Document)}
    (h : ∀ e ∈ entries, e.2.WellKeyed) : (mappingOf entries).WellKeyed := by
  have hfold (es : List (Scalar × Document)) (hkeys : DistinctKeys es)
      (hvalues : ∀ e ∈ es, e.2.WellKeyed) :
      (Document.mapping (entries.foldl (fun es e => putEntry e.1 e.2 es) es)).WellKeyed := by
    induction entries generalizing es with
    | nil => exact .mapping hkeys hvalues
    | cons e entries ih =>
      refine ih (fun e' he' => h e' (List.mem_cons_of_mem _ he')) _
        (distinctKeys_putEntry e.1 e.2 hkeys) fun e' he' => ?_
      rcases mem_putEntry he' with rfl | he'
      · exact h e List.mem_cons_self
      · exact hvalues e' he'
  exact hfold [] .nil (by simp)

/-- A mapping of one entry is well-keyed when its value is. -/
lemma wellKeyed_singleton {value : Document} (h : value.WellKeyed) (key : Scalar) :
    (Document.mapping [(key, value)]).WellKeyed :=
  .mapping (List.pairwise_singleton _ _) (by simpa using h)

/-! ### Readers -/

/-- Whatever is read has the property. -/
def Yields {α : Type} (P : α → Prop) (r : Option (α × List Char)) : Prop :=
  ∀ a rest, r = some (a, rest) → P a

namespace Yields

variable {α β γ : Type} {P : α → Prop} {Q : β → Prop}

/-- A reader that fails yields nothing that could break the property. -/
lemma none : Yields P none := nofun

/-- A reader that ends with a value yields what the value satisfies. -/
lemma some {a : α} (h : P a) (rest : List Char) : Yields P (some (a, rest)) := by
  rintro _ _ ⟨⟩
  exact h

/-- In a sequence of readers the second may use what is known of the first one's value. -/
lemma bind {r : Option (β × List Char)} {f : β × List Char → Option (α × List Char)}
    (hr : Yields Q r) (hf : ∀ b rest, Q b → Yields P (f (b, rest))) : Yields P (r >>= f) := by
  intro a rest h
  obtain ⟨⟨b, rest'⟩, hb, ha⟩ := Option.bind_eq_some_iff.mp h
  exact hf b rest' (hr b rest' hb) a rest ha

/-- A reader whose value is not used may be followed by any yielding one. -/
lemma bindAny {r : Option γ} {f : γ → Option (α × List Char)} (hf : ∀ c, Yields P (f c)) :
    Yields P (r >>= f) := by
  intro a rest h
  obtain ⟨c, -, ha⟩ := Option.bind_eq_some_iff.mp h
  exact hf c a rest ha

/-- The value of a mapped reader is judged after the mapping. -/
lemma map {r : Option (β × List Char)} {f : β × List Char → α × List Char} (hr : Yields Q r)
    (hf : ∀ b rest, Q b → P (f (b, rest)).1) : Yields P (r.map f) := by
  intro a rest h
  obtain ⟨⟨b, rest'⟩, hb, ha⟩ := Option.map_eq_some_iff.mp h
  have hP := hf b rest' (hr b rest' hb)
  rwa [ha] at hP

end Yields

/-- Every value of the entries is made of dictionaries. -/
abbrev ValuesWellKeyed (entries : List (Scalar × Document)) : Prop :=
  ∀ e ∈ entries, e.2.WellKeyed

/-- Every item is made of dictionaries. -/
abbrev ItemsWellKeyed (items : List Document) : Prop :=
  ∀ d ∈ items, d.WellKeyed

/-- What flow readers with so much fuel yield is made of dictionaries. -/
structure FlowWellKeyed (fuel : Nat) : Prop where
  node : ∀ cs, Yields WellKeyed (flowNode? fuel cs)
  value : ∀ cs, Yields WellKeyed (flowValue? fuel cs)
  items : ∀ cs, Yields ItemsWellKeyed (flowItems? fuel cs)
  entries : ∀ cs, Yields ValuesWellKeyed (flowEntries? fuel cs)

namespace FlowWellKeyed

variable {fuel : Nat}

/-- A flow node is a sequence, a mapping or a scalar, read with one unit of fuel less. -/
lemma succ_node (h : FlowWellKeyed fuel) (cs : List Char) :
    Yields WellKeyed (flowNode? (fuel + 1) cs) := by
  unfold flowNode?
  split
  · exact (h.items _).map fun items rest hitems => .list hitems
  · exact (h.entries _).map fun entries rest hentries => wellKeyed_mappingOf hentries
  · intro d rest hread
    obtain ⟨⟨s, rest'⟩, -, ⟨⟩⟩ := Option.map_eq_some_iff.mp hread
    exact .scalar s

/-- The value behind a key of a flow mapping is a node or is absent. -/
lemma succ_value (h : FlowWellKeyed fuel) (cs : List Char) :
    Yields WellKeyed (flowValue? (fuel + 1) cs) := by
  unfold flowValue?
  split
  · exact .none
  · split
    · exact .some (.scalar .null) _
    · exact h.node _
  · exact .none

/-- Behind an item there are more items, or the list ends. -/
theorem items_behind (h : FlowWellKeyed fuel) {item : Document} (hitem : item.WellKeyed)
    (after : List Char) :
    Yields ItemsWellKeyed (match after with
      | ',' :: rest => do
        let (items, rest) ← flowItems? fuel rest
        some (item :: items, rest)
      | ']' :: rest => some ([item], rest)
      | _ => none) := by
  split
  · refine (h.items _).bind fun items rest hitems => .some ?_ _
    exact List.forall_mem_cons.mpr ⟨hitem, hitems⟩
  · exact .some (by simpa [ItemsWellKeyed] using hitem) _
  · exact .none

/-- The items of a flow sequence are nodes. -/
lemma succ_items (h : FlowWellKeyed fuel) (cs : List Char) :
    Yields ItemsWellKeyed (flowItems? (fuel + 1) cs) := by
  unfold flowItems?
  refine .bindAny fun token => ?_
  split
  · exact .some (by simp [ItemsWellKeyed]) _
  refine (h.node token).bind fun first rest hfirst => .bindAny fun after => ?_
  dsimp only
  split
  · split
    · exact (h.value _).bind fun value rest hvalue => .bindAny fun rest =>
        h.items_behind (wellKeyed_singleton hvalue _) rest
    · exact .none
  · exact h.items_behind hfirst after

/-- Behind an entry there are more entries, or the mapping ends. -/
theorem entries_behind (h : FlowWellKeyed fuel) (key : Scalar) {value : Document}
    (hvalue : value.WellKeyed) (after : List Char) :
    Yields ValuesWellKeyed (match after with
      | ',' :: rest => do
        let (entries, rest) ← flowEntries? fuel rest
        some ((key, value) :: entries, rest)
      | '\x7d' :: rest => some ([(key, value)], rest)
      | _ => none) := by
  split
  · refine (h.entries _).bind fun entries rest hentries => .some ?_ _
    exact List.forall_mem_cons.mpr ⟨hvalue, hentries⟩
  · exact .some (by simpa [ValuesWellKeyed] using hvalue) _
  · exact .none

/-- The values of a flow mapping are put under distinct keys one by one. -/
lemma succ_entries (h : FlowWellKeyed fuel) (cs : List Char) :
    Yields ValuesWellKeyed (flowEntries? (fuel + 1) cs) := by
  unfold flowEntries?
  refine .bindAny fun token => ?_
  split
  · exact .some (by simp [ValuesWellKeyed]) _
  refine .bindAny fun key => .bindAny fun after => ?_
  dsimp only
  split
  · exact (h.value _).bind fun value rest hvalue => .bindAny fun rest =>
      h.entries_behind key.1 hvalue rest
  · exact h.entries_behind key.1 (.scalar .null) after

end FlowWellKeyed

/-- All readers of the flow style give well-keyed documents, by induction on the fuel they share. -/
lemma flowWellKeyed (fuel : Nat) : FlowWellKeyed fuel := by
  induction fuel with
  | zero => exact ⟨fun _ => .none, fun _ => .none, fun _ => .none, fun _ => .none⟩
  | succ fuel ih => exact ⟨ih.succ_node, ih.succ_value, ih.succ_items, ih.succ_entries⟩

/-- A document on one line is well-keyed. -/
lemma wellKeyed_inline? (floor : Nat) (cs : List Char) : Yields WellKeyed (inline? floor cs) := by
  unfold inline?
  split
  · exact (flowWellKeyed _).node _
  · exact (flowWellKeyed _).node _
  · split
    · exact .some (.scalar _) _
    · split
      · exact .some (.scalar _) _
      · exact .none

/-- What block readers with so much fuel yield is made of dictionaries. -/
structure BlockWellKeyed (fuel : Nat) : Prop where
  node : ∀ floor column cs, Yields WellKeyed (node? fuel floor column cs)
  items : ∀ column cs, Yields ItemsWellKeyed (items? fuel column cs)
  entries : ∀ column cs, Yields ValuesWellKeyed (entries? fuel column cs)

namespace BlockWellKeyed

variable {fuel : Nat}

/-- A block node is a sequence, a mapping or a document on one line. -/
lemma succ_node (h : BlockWellKeyed fuel) (floor column : Nat) (cs : List Char) :
    Yields WellKeyed (node? (fuel + 1) floor column cs) := by
  unfold node?
  split
  · exact (h.items _ _).map fun items rest hitems => .list hitems
  · split
    · exact (h.entries _ _).map fun entries rest hentries => wellKeyed_mappingOf hentries
    · exact (wellKeyed_inline? _ _).bind fun d rest hd => .bindAny fun rest => .some hd _

/-- Behind an item there are more items, or the list ends. -/
theorem items_behind (h : BlockWellKeyed fuel) {item : Document} (hitem : item.WellKeyed)
    (column : Nat) (rest : List Char) :
    Yields ItemsWellKeyed (match nextToken? false 0 rest with
      | some (c, token) =>
        if c = column && startsItem token then do
          let (items, rest) ← items? fuel column token
          some (item :: items, rest)
        else if column < c then none
        else some ([item], rest)
      | none => some ([item], rest)) := by
  have hsingle : ItemsWellKeyed [item] := by simpa [ItemsWellKeyed] using hitem
  split
  · split_ifs
    · refine (h.items _ _).bind fun items rest hitems => .some ?_ _
      exact List.forall_mem_cons.mpr ⟨hitem, hitems⟩
    · exact .none
    · exact .some hsingle _
  · exact .some hsingle _

/-- The items of a block sequence are nodes of a deeper column. -/
lemma succ_items (h : BlockWellKeyed fuel) (column : Nat) (cs : List Char) :
    Yields ItemsWellKeyed (items? (fuel + 1) column cs) := by
  unfold items?
  dsimp only
  split
  · refine .bindAny fun rest => ?_
    split
    · split
      · exact (h.node _ _ _).bind fun item rest hitem => h.items_behind hitem column rest
      · exact h.items_behind (.scalar .null) column _
    · exact h.items_behind (.scalar .null) column _
  · exact (h.node _ _ _).bind fun item rest hitem => h.items_behind hitem column rest

/-- Behind an entry there are more entries, or the mapping ends. -/
theorem entries_behind (h : BlockWellKeyed fuel) (key : Scalar) {value : Document}
    (hvalue : value.WellKeyed) (column : Nat) (rest : List Char) :
    Yields ValuesWellKeyed (match nextToken? false 0 rest with
      | some (c, token) =>
        if c = column then do
          let (entries, rest) ← entries? fuel column token
          some ((key, value) :: entries, rest)
        else if column < c then none
        else some ([(key, value)], rest)
      | none => some ([(key, value)], rest)) := by
  have hsingle : ValuesWellKeyed [(key, value)] := by simpa [ValuesWellKeyed] using hvalue
  split
  · split_ifs
    · refine (h.entries _ _).bind fun entries rest hentries => .some ?_ _
      exact List.forall_mem_cons.mpr ⟨hvalue, hentries⟩
    · exact .none
    · exact .some hsingle _
  · exact .some hsingle _

/-- The entries of a block mapping stand under distinct keys. -/
lemma succ_entries (h : BlockWellKeyed fuel) (column : Nat) (cs : List Char) :
    Yields ValuesWellKeyed (entries? (fuel + 1) column cs) := by
  unfold entries?
  refine .bindAny fun key => ?_
  dsimp only
  split
  · refine .bindAny fun rest => ?_
    split
    · split_ifs
      · exact (h.node _ _ _).bind fun value rest hvalue => h.entries_behind _ hvalue column rest
      · refine Yields.bind (Q := WellKeyed) ?_ fun value rest hvalue =>
          h.entries_behind _ hvalue column rest
        exact (h.items _ _).map fun items rest hitems => .list hitems
      · exact h.entries_behind _ (.scalar .null) column _
    · exact h.entries_behind _ (.scalar .null) column _
  · exact (wellKeyed_inline? _ _).bind fun value rest hvalue => .bindAny fun rest =>
      h.entries_behind _ hvalue column rest

end BlockWellKeyed

/-- All readers of the block style give well-keyed documents, by induction on the fuel they
share. -/
lemma blockWellKeyed (fuel : Nat) : BlockWellKeyed fuel := by
  induction fuel with
  | zero =>
    refine ⟨fun _ _ _ => ?_, fun _ _ => ?_, fun _ _ => ?_⟩
    · unfold node?
      exact .none
    · unfold items?
      exact .none
    · unfold entries?
      exact .none
  | succ fuel ih => exact ⟨ih.succ_node, ih.succ_items, ih.succ_entries⟩

/-- In a document that was read every mapping is a dictionary. -/
theorem wellKeyed_of_read? {source : String} {d : Document} (h : read? source = some d) :
    d.WellKeyed := by
  unfold read? at h
  dsimp only at h
  split at h
  · cases h
  · split at h
    · cases h
      exact .scalar .null
    · split at h
      · cases h
      · rename_i d' rest hnode
        split_ifs at h
        cases h
        exact (blockWellKeyed _).node _ _ _ d rest hnode

end Yaml

end Requirements
