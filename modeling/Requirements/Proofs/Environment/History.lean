import Mathlib.Data.List.Induction
import Mathlib.Tactic.Lemma
import Requirements.Proofs.Environment.Registry

/-!
# What a registry remembers

A registry that has been changed many times remembers of each name its last operation only: a name
that was added last is there, as it was added, and a name that was removed last is not. The order of
the registry goes further back. A name that is added anew while it is there keeps its place, so it
stands where it arrived, which is where it was added after it had last been absent.
-/

namespace Requirements

namespace Registry

/-- A change of a registry. -/
inductive Operation where
  | add (name : String) (version : Option String) (features : List String)
  | remove (name : String)
deriving DecidableEq, Repr

namespace Operation

/-- The name that is added or removed. -/
def name : Operation → String
  | add name _ _ => name
  | remove name => name

end Operation

/-- The registry after a change. -/
def perform (r : Registry) : Operation → Registry
  | .add N version features => r.add N version features
  | .remove N => r.remove N

/-- What the change answers: removing says whether the module was there. -/
def reply (r : Registry) : Operation → Option Bool
  | .add _ _ _ => none
  | .remove N => some (r.contains N)

/-- The registry after some changes, one behind the other. -/
def run (r : Registry) (ops : List Operation) : Registry :=
  ops.foldl perform r

/-- The modules of an initial table, as operations. -/
def additions (versions : List (String × Option String)) : List Operation :=
  versions.map fun v => .add v.1 v.2 []

/-- A registry made from a table of versions is the run of the additions, one for each row. -/
lemma ofVersions_eq_run (versions : List (String × Option String)) :
    ofVersions versions = run {} (additions versions) := by
  unfold ofVersions run additions
  rw [List.foldl_map]
  rfl

/-! ### Last additions -/

/-- The last operation on `N` adds it, with the version and the features. -/
def LastAdded (ops : List Operation) (N : String) (version : Option String)
    (features : List String) : Prop :=
  ∃ before after, ops = before ++ .add N version features :: after ∧ ∀ op ∈ after, op.name ≠ N

/-- The last operation on `N` adds it. -/
def Present (ops : List Operation) (N : String) : Prop :=
  ∃ version features, LastAdded ops N version features

variable {ops : List Operation} {op : Operation} {M N : String} {version : Option String}
  {features : List String}

lemma not_lastAdded_nil : ¬LastAdded [] N version features := by
  rintro ⟨before, after, h, -⟩
  simp at h

/-- The last addition after one more operation is that operation, or the one before if the operation
is about another name. -/
lemma lastAdded_concat :
    LastAdded (ops ++ [op]) N version features ↔
      op = .add N version features ∨ op.name ≠ N ∧ LastAdded ops N version features := by
  constructor
  · rintro ⟨before, after, h, hafter⟩
    rcases List.eq_nil_or_concat after with rfl | ⟨after, last, rfl⟩
    · exact .inl (List.singleton_inj.mp (List.append_inj_right' h rfl))
    · rw [List.concat_eq_append, ← List.cons_append, ← List.append_assoc] at h
      have hlast : op = last := List.singleton_inj.mp (List.append_inj_right' h rfl)
      refine .inr ⟨?_, before, after, List.append_inj_left' h rfl, fun o ho => ?_⟩
      · rw [hlast]
        exact hafter last (by simp)
      · exact hafter o (by simp [ho])
  · rintro (rfl | ⟨hop, before, after, rfl, hafter⟩)
    · exact ⟨ops, [], rfl, by simp⟩
    · refine ⟨before, after ++ [op], by simp, fun o ho => ?_⟩
      rcases List.mem_append.mp ho with ho | ho
      · exact hafter o ho
      · rw [List.mem_singleton.mp ho]
        exact hop

/-- A name is present after one more operation if that adds it, or if it was present and the
operation is about another name. -/
lemma present_concat :
    Present (ops ++ [op]) N ↔
      (∃ version features, op = .add N version features) ∨ op.name ≠ N ∧ Present ops N := by
  constructor
  · rintro ⟨version, features, h⟩
    rcases lastAdded_concat.mp h with h | ⟨hop, h⟩
    · exact .inl ⟨version, features, h⟩
    · exact .inr ⟨hop, version, features, h⟩
  · rintro (⟨version, features, h⟩ | ⟨hop, version, features, h⟩)
    · exact ⟨version, features, lastAdded_concat.mpr (.inl h)⟩
    · exact ⟨version, features, lastAdded_concat.mpr (.inr ⟨hop, h⟩)⟩

/-! ### Arrivals -/

/-- The operation at `i` adds `N`, which was absent before, and `N` is not removed behind it. -/
def Arrived (ops : List Operation) (N : String) (i : Nat) : Prop :=
  ∃ before version features after, ops = before ++ .add N version features :: after ∧
    before.length = i ∧ ¬Present before N ∧ .remove N ∉ after

/-- A name arrives at a place of the history. -/
lemma Arrived.lt_length {i : Nat} (h : Arrived ops N i) : i < ops.length := by
  obtain ⟨before, version, features, after, rfl, rfl, -, -⟩ := h
  rw [List.length_append, List.length_cons]
  omega

/-- One more operation is the arrival of a name that was absent; otherwise an earlier arrival stays
unless the operation removes the name. -/
lemma arrived_concat {i : Nat} :
    Arrived (ops ++ [op]) N i ↔
      (i = ops.length ∧ ¬Present ops N ∧ ∃ version features, op = .add N version features) ∨
        op ≠ .remove N ∧ Arrived ops N i := by
  constructor
  · rintro ⟨before, version, features, after, h, rfl, habsent, hafter⟩
    rcases List.eq_nil_or_concat after with rfl | ⟨after, last, rfl⟩
    · obtain rfl : ops = before := List.append_inj_left' h rfl
      have hop := List.singleton_inj.mp (List.append_inj_right' h rfl)
      exact .inl ⟨rfl, habsent, version, features, hop⟩
    · rw [List.concat_eq_append, ← List.cons_append, ← List.append_assoc] at h
      have hlast : op = last := List.singleton_inj.mp (List.append_inj_right' h rfl)
      rw [List.concat_eq_append, List.mem_append, not_or] at hafter
      refine .inr ⟨?_, before, version, features, after, List.append_inj_left' h rfl, rfl,
        habsent, hafter.1⟩
      rintro rfl
      exact hafter.2 (by simp [hlast])
  · rintro (⟨rfl, habsent, version, features, rfl⟩ |
      ⟨hop, before, version, features, after, rfl, rfl, habsent, hafter⟩)
    · exact ⟨ops, version, features, [], rfl, rfl, habsent, by simp⟩
    · refine ⟨before, version, features, after ++ [op], by simp, rfl, habsent, ?_⟩
      rw [List.mem_append, List.mem_singleton, not_or]
      exact ⟨hafter, fun h => hop h.symm⟩

/-- An operation on a name is its removal or its addition. -/
lemma Operation.exists_add_of_ne_remove (hname : op.name = N) (hop : op ≠ .remove N) :
    ∃ version features, op = .add N version features := by
  cases op with
  | add name version features =>
    obtain rfl : name = N := hname
    exact ⟨version, features, rfl⟩
  | remove name =>
    obtain rfl : name = N := hname
    exact absurd rfl hop

/-- The names that are there are those that have arrived. -/
theorem present_iff_exists_arrived : Present ops N ↔ ∃ i, Arrived ops N i := by
  induction ops using List.reverseRecOn with
  | nil =>
    constructor
    · rintro ⟨version, features, h⟩
      exact absurd h not_lastAdded_nil
    · rintro ⟨i, h⟩
      exact absurd h.lt_length (Nat.not_lt_zero i)
  | append_singleton ops op ih =>
    rw [present_concat]
    constructor
    · rintro (hadd | ⟨hop, hpresent⟩)
      · by_cases hpresent : Present ops N
        · obtain ⟨i, hi⟩ := ih.mp hpresent
          obtain ⟨version, features, rfl⟩ := hadd
          exact ⟨i, arrived_concat.mpr (.inr ⟨nofun, hi⟩)⟩
        · exact ⟨ops.length, arrived_concat.mpr (.inl ⟨rfl, hpresent, hadd⟩)⟩
      · obtain ⟨i, hi⟩ := ih.mp hpresent
        refine ⟨i, arrived_concat.mpr (.inr ⟨?_, hi⟩)⟩
        rintro rfl
        exact hop rfl
    · rintro ⟨i, hi⟩
      rcases arrived_concat.mp hi with ⟨-, -, hadd⟩ | ⟨hop, hi⟩
      · exact .inl hadd
      · by_cases hname : op.name = N
        · exact .inl (Operation.exists_add_of_ne_remove hname hop)
        · exact .inr ⟨hname, ih.mpr ⟨i, hi⟩⟩

/-- A name arrives once. -/
theorem Arrived.unique {i j : Nat} (hi : Arrived ops N i) (hj : Arrived ops N j) : i = j := by
  induction ops using List.reverseRecOn with
  | nil => exact absurd hi.lt_length (Nat.not_lt_zero i)
  | append_singleton ops op ih =>
    rcases arrived_concat.mp hi with ⟨rfl, habsent, -⟩ | ⟨-, hi⟩
    · rcases arrived_concat.mp hj with ⟨rfl, -, -⟩ | ⟨-, hj⟩
      · rfl
      · exact absurd (present_iff_exists_arrived.mpr ⟨j, hj⟩) habsent
    · rcases arrived_concat.mp hj with ⟨-, habsent, -⟩ | ⟨-, hj⟩
      · exact absurd (present_iff_exists_arrived.mpr ⟨i, hi⟩) habsent
      · exact ih hi hj

/-! ### Runs -/

/-- The registry is what the operations leave behind. -/
structure Remembers (ops : List Operation) (r : Registry) : Prop where
  get? : ∀ N m, r.get? N = some m ↔
    ∃ version features, LastAdded ops N version features ∧ m = ⟨N, version, Text.nameSet features⟩
  nodup : r.names.Nodup
  arrived : r.names.Pairwise fun M N => ∃ i j, Arrived ops M i ∧ Arrived ops N j ∧ i < j

lemma remembers_nil : Remembers [] {} := by
  refine ⟨fun N m => ?_, .nil, .nil⟩
  constructor
  · rintro ⟨⟩
  · rintro ⟨version, features, h, -⟩
    exact absurd h not_lastAdded_nil

namespace Remembers

variable {r : Registry}

/-- The names of a registry are those present by its history. -/
lemma mem_names_iff (h : Remembers ops r) : N ∈ r.names ↔ Present ops N := by
  rw [← contains_eq_true_iff, contains, Option.isSome_iff_exists]
  constructor
  · rintro ⟨m, hm⟩
    obtain ⟨version, features, hlast, -⟩ := (h.get? N m).mp hm
    exact ⟨version, features, hlast⟩
  · rintro ⟨version, features, hlast⟩
    exact ⟨_, (h.get? N _).mpr ⟨version, features, hlast, rfl⟩⟩

/-- Names that are not removed stay in the order of their arrivals. -/
theorem pairwise_arrived_concat (op : Operation) {names : List String}
    (hop : ∀ N ∈ names, op ≠ .remove N)
    (h : names.Pairwise fun M N => ∃ i j, Arrived ops M i ∧ Arrived ops N j ∧ i < j) :
    names.Pairwise fun M N =>
      ∃ i j, Arrived (ops ++ [op]) M i ∧ Arrived (ops ++ [op]) N j ∧ i < j := by
  refine h.imp_of_mem fun {M N} hM hN => ?_
  rintro ⟨i, j, hi, hj, hlt⟩
  exact ⟨i, j, arrived_concat.mpr (.inr ⟨hop M hM, hi⟩), arrived_concat.mpr (.inr ⟨hop N hN, hj⟩),
    hlt⟩

/-- An addition is remembered: it replaces the record in its place or goes to the end. -/
lemma add (h : Remembers ops r) (N : String) (version : Option String) (features : List String) :
    Remembers (ops ++ [.add N version features]) (r.add N version features) := by
  have hkept := pairwise_arrived_concat (.add N version features) (fun _ _ => nofun) h.arrived
  refine ⟨fun M m => ?_, nodup_names_add h.nodup N version features, ?_⟩
  · rw [get?_add]
    by_cases hM : M = N
    · subst hM
      simp [lastAdded_concat, Operation.name, eq_comm]
    · rw [if_neg hM, h.get? M m]
      simp [lastAdded_concat, Operation.name, Ne.symm hM]
  · rw [names_add]
    split
    · exact hkept
    · rename_i hN
      refine List.pairwise_append.mpr ⟨hkept, List.pairwise_singleton _ _, fun M hM _ hN' => ?_⟩
      rw [List.mem_singleton.mp hN']
      obtain ⟨i, hi⟩ := present_iff_exists_arrived.mp (h.mem_names_iff.mp hM)
      have habsent : ¬Present ops N := fun hpresent => hN (h.mem_names_iff.mpr hpresent)
      exact ⟨i, ops.length, arrived_concat.mpr (.inr ⟨nofun, hi⟩),
        arrived_concat.mpr (.inl ⟨rfl, habsent, version, features, rfl⟩), hi.lt_length⟩

/-- A removal is remembered: the record is gone, the others keep their order. -/
lemma remove (h : Remembers ops r) (N : String) :
    Remembers (ops ++ [.remove N]) (r.remove N) := by
  refine ⟨fun M m => ?_, nodup_names_remove h.nodup N, ?_⟩
  · rw [get?_remove]
    by_cases hM : M = N
    · subst hM
      simp [lastAdded_concat, Operation.name]
    · rw [if_neg hM, h.get? M m]
      simp [lastAdded_concat, Operation.name, Ne.symm hM]
  · rw [names_remove]
    refine pairwise_arrived_concat _ (fun M hM => ?_) (h.arrived.filter _)
    have hne : M ≠ N := by simpa using (List.mem_filter.mp hM).2
    rintro ⟨⟩
    exact hne rfl

/-- One operation carries a history over to the registry behind it. -/
lemma perform (h : Remembers ops r) (op : Operation) :
    Remembers (ops ++ [op]) (r.perform op) := by
  cases op with
  | add N version features => exact h.add N version features
  | remove N => exact h.remove N

/-- A run carries a history over to the registry behind it, by induction on the operations. -/
lemma run (h : Remembers ops r) (more : List Operation) :
    Remembers (ops ++ more) (r.run more) := by
  induction more generalizing ops r with
  | nil => rwa [List.append_nil]
  | cons op more ih =>
    have hall := ih (h.perform op)
    rwa [List.append_assoc, List.singleton_append] at hall

/-- A lookup gives what the last addition said, if the name was not removed since. -/
lemma lookup_eq_some_iff (h : Remembers ops r) {record : ModuleRecord} :
    r.lookup N = some record ↔
      ∃ version features, LastAdded ops N version features ∧ record = ⟨N, version⟩ := by
  rw [lookup, Option.map_eq_some_iff]
  constructor
  · rintro ⟨m, hm, rfl⟩
    obtain ⟨version, features, hlast, rfl⟩ := (h.get? N m).mp hm
    exact ⟨version, features, hlast, rfl⟩
  · rintro ⟨version, features, hlast, rfl⟩
    exact ⟨_, (h.get? N _).mpr ⟨version, features, hlast, rfl⟩, rfl⟩

/-- A feature is known exactly if the last addition listed it. -/
lemma hasFeature_eq_true_iff (h : Remembers ops r) {f : String} :
    r.hasFeature N f = true ↔
      ∃ version features, LastAdded ops N version features ∧ f ∈ features := by
  rw [hasFeature, Option.any_eq_true]
  constructor
  · rintro ⟨m, hm, hf⟩
    obtain ⟨version, features, hlast, rfl⟩ := (h.get? N m).mp hm
    exact ⟨version, features, hlast, by simpa using hf⟩
  · rintro ⟨version, features, hlast, hf⟩
    exact ⟨_, (h.get? N _).mpr ⟨version, features, hlast, rfl⟩, by simpa using hf⟩

end Remembers

/-! ### Two tables

A registry can be kept as two tables, one of records and one of feature lists. They are changed
together, so each of them has the names of the other in the same order. -/

/-- Puts a value in the place of the one of the key, or at the end. -/
def setKey {α : Type} (key : String) (value : α) : List (String × α) → List (String × α)
  | [] => [(key, value)]
  | entry :: rest => if entry.1 = key then (key, value) :: rest else entry :: setKey key value rest

/-- The records and the features of modules, each by name. -/
structure Tables where
  records : List (String × ModuleRecord)
  features : List (String × List String)

/-- The tables after a change. Nothing is removed where there is no record. -/
def Tables.perform (t : Tables) : Operation → Tables
  | .add N version features =>
    ⟨setKey N ⟨N, version⟩ t.records, setKey N (Text.nameSet features) t.features⟩
  | .remove N =>
    if (t.records.lookup N).isSome then
      ⟨t.records.filter fun entry => entry.1 != N, t.features.filter fun entry => entry.1 != N⟩
    else t

/-- The tables of a registry. -/
def tables (r : Registry) : Tables :=
  ⟨r.modules.map fun m => (m.name, m.record), r.modules.map fun m => (m.name, m.features)⟩

/-- Writing one key of the dictionary of a field is writing the module it belongs to. -/
lemma setKey_map {α : Type} (f : InstalledModule → α) (m : InstalledModule)
    (l : List InstalledModule) :
    setKey m.name (f m) (l.map fun n => (n.name, f n)) = (put m l).map fun n => (n.name, f n) := by
  induction l with
  | nil => rfl
  | cons n l ih =>
    rw [List.map_cons, setKey, put]
    by_cases hn : n.name = m.name
    · rw [if_pos hn, if_pos hn, List.map_cons]
    · rw [if_neg hn, if_neg hn, List.map_cons, ih]

/-- Reading one key of the dictionary of a field is reading the field of the module found. -/
lemma lookup_map {α : Type} (f : InstalledModule → α) (N : String) (l : List InstalledModule) :
    (l.map fun n => (n.name, f n)).lookup N = (l.find? fun n => n.name == N).map f := by
  induction l with
  | nil => rfl
  | cons n l ih =>
    rw [List.map_cons, List.lookup_cons, List.find?_cons, ih, Bool.beq_comm]
    cases n.name == N with
    | true => rfl
    | false => rfl

/-- A change of a registry changes its tables together. -/
theorem tables_perform (r : Registry) (op : Operation) :
    (r.perform op).tables = r.tables.perform op := by
  cases op with
  | add N version features =>
    let m : InstalledModule := ⟨N, version, Text.nameSet features⟩
    have hrecords := setKey_map InstalledModule.record m r.modules
    have hfeatures := setKey_map InstalledModule.features m r.modules
    exact congrArg₂ Tables.mk hrecords.symm hfeatures.symm
  | remove N =>
    have hlookup : (r.tables.records.lookup N).isSome = r.contains N := by
      rw [tables, lookup_map, Option.isSome_map]
      rfl
    rw [Tables.perform, hlookup]
    split
    · simp only [tables, perform, remove, List.filter_map]
      rfl
    · rename_i hnone
      rw [contains_eq_true_iff] at hnone
      have hmodules : r.modules.filter (fun m => m.name != N) = r.modules := by
        refine List.filter_eq_self.mpr fun m hm => ?_
        have hne : m.name ≠ N := fun h => hnone (h ▸ List.mem_map_of_mem hm)
        simpa using hne
      rw [perform, remove, hmodules]

/-- After any changes the two tables are those of the registry, and what is looked up in them and
listed from them is what the registry answers. -/
theorem tables_run (r : Registry) (ops : List Operation) :
    let t := ops.foldl Tables.perform r.tables
    t = (r.run ops).tables ∧
      (∀ N, (r.run ops).lookup N = t.records.lookup N) ∧
      (∀ N f, (r.run ops).hasFeature N f = (t.features.lookup N).any fun list => list.contains f) ∧
      (r.run ops).records = t.records.map Prod.snd := by
  intro t
  have ht : t = (r.run ops).tables := by
    induction ops generalizing r with
    | nil => rfl
    | cons op ops ih =>
      have hstep := ih (r.perform op)
      rwa [tables_perform] at hstep
  refine ⟨ht, fun N => ?_, fun N f => ?_, ?_⟩
  · rw [ht, tables, lookup_map]
    rfl
  · rw [ht, tables, lookup_map, Option.any_map]
    rfl
  · rw [ht, tables, List.map_map]
    rfl

/-! ### Histories -/

/-- Whatever is added to a registry and removed from it, a look-up answers what was added last under
the name, unless the name has been removed since, and the features are those given then. The modules
that are there are listed once each, in the order of their arrivals. Removing a module says whether
it was there, and leaves the answers about all others and their order as they are. -/
theorem run_remembers (versions : List (String × Option String)) (ops : List Operation) :
    let history := additions versions ++ ops
    let r := (ofVersions versions).run ops
    (∀ N record, r.lookup N = some record ↔
      ∃ version features, LastAdded history N version features ∧ record = ⟨N, version⟩) ∧
    (∀ N f, r.hasFeature N f = true ↔
      ∃ version features, LastAdded history N version features ∧ f ∈ features) ∧
    ((r.records.map ModuleRecord.name).Nodup ∧
      (∀ record, record ∈ r.records ↔ r.lookup record.name = some record) ∧
      (∀ N, N ∈ r.records.map ModuleRecord.name ↔ ∃ i, Arrived history N i) ∧
      r.records.Pairwise fun m n =>
        ∀ i j, Arrived history m.name i → Arrived history n.name j → i < j) ∧
    ∀ N, (r.reply (.remove N) = some true ↔ Present history N) ∧
      let r' := r.perform (.remove N)
      (∀ M, M ≠ N → r'.lookup M = r.lookup M ∧ ∀ f, r'.hasFeature M f = r.hasFeature M f) ∧
        r'.records = r.records.filter fun m => m.name ≠ N := by
  intro history r
  have h : Remembers history r := by
    have hinitial : Remembers (additions versions) (ofVersions versions) := by
      rw [ofVersions_eq_run]
      exact remembers_nil.run (additions versions)
    exact hinitial.run ops
  refine ⟨fun N record => h.lookup_eq_some_iff, fun N f => h.hasFeature_eq_true_iff,
    ⟨?_, fun record => mem_records_iff h.nodup, fun N => ?_, ?_⟩,
    fun N => ⟨?_, fun M hM => ⟨?_, fun f => ?_⟩, ?_⟩⟩
  · rw [map_name_records]
    exact h.nodup
  · rw [map_name_records, h.mem_names_iff, present_iff_exists_arrived]
  · have harrived := h.arrived
    rw [← map_name_records, List.pairwise_map] at harrived
    refine harrived.imp fun {m n} => ?_
    rintro ⟨i, j, hi, hj, hlt⟩ i' j' hi' hj'
    rwa [hi.unique hi', hj.unique hj'] at hlt
  · rw [reply, Option.some.injEq, contains_eq_true_iff, h.mem_names_iff]
  · rw [perform, lookup, get?_remove, if_neg hM]
    rfl
  · rw [perform, hasFeature, get?_remove, if_neg hM]
    rfl
  · simp only [perform, remove, records, List.filter_map]
    congr 1
    refine List.filter_congr fun m _ => ?_
    by_cases hm : m.name = N <;> simp [InstalledModule.record, hm]

/-- A module that is replaced keeps its place and loses its features, and one that is removed and
added again stands at the end. -/
theorem run_remembers_of_replacement_and_return :
    let ops : List Operation :=
      [.add "A" (some "2") ["f"], .add "A" none ["g"], .remove "B", .add "B" none [], .remove "D"]
    let r := (ofVersions [("A", some "1"), ("B", none), ("C", none)]).run ops
    r.records = [⟨"A", none⟩, ⟨"C", none⟩, ⟨"B", none⟩] ∧ r.hasFeature "A" "f" = false ∧
      r.hasFeature "A" "g" = true ∧ r.lookup "D" = none ∧ r.reply (.remove "D") = some false ∧
      ∃ i, Arrived (additions [("A", some "1"), ("B", none), ("C", none)] ++ ops) "B" i := by
  intro ops r
  obtain ⟨-, -, ⟨-, -, harrived, -⟩, -⟩ :=
    run_remembers [("A", some "1"), ("B", none), ("C", none)] ops
  exact ⟨by decide, by decide, by decide, by decide, by decide, (harrived "B").mp (by decide)⟩

end Registry

end Requirements
