import Mathlib.Data.List.Nodup
import Mathlib.Tactic.Lemma
import Requirements.Environment.Registry

/-!
# Adding to a registry and removing from it

What adding and removing a module do to the entries of a registry and to the order of its names.
Adding keeps the place of a name that is there, and puts any other name at the end.
-/

namespace Requirements

namespace Registry

variable {r : Registry} {M N : String}

/-- The names of the modules, in the order of the registry. -/
def names (r : Registry) : List String :=
  r.modules.map InstalledModule.name

/-- After a module is put into the list its name finds it, every other name finds what it found
before. -/
lemma find?_put (m : InstalledModule) (l : List InstalledModule) (M : String) :
    (put m l).find? (fun n => n.name == M) =
      if M = m.name then some m else l.find? fun n => n.name == M := by
  induction l with
  | nil =>
    by_cases hM : M = m.name
    · simp [put, hM]
    · simp [put, hM, Ne.symm hM]
  | cons n l ih =>
    rw [put]
    by_cases hn : n.name = m.name
    · rw [if_pos hn]
      by_cases hM : M = m.name
      · simp [hM]
      · simp [hM, Ne.symm hM, hn]
    · rw [if_neg hn, List.find?_cons, List.find?_cons, ih]
      by_cases hM : n.name = M
      · have hne : M ≠ m.name := by rw [← hM]; exact hn
        simp [hM, hne]
      · have hfalse : (n.name == M) = false := beq_false_of_ne hM
        rw [hfalse]

/-- Putting a module into the list adds its name at the end unless the name is there. -/
lemma map_name_put (m : InstalledModule) (l : List InstalledModule) :
    (put m l).map InstalledModule.name =
      if m.name ∈ l.map InstalledModule.name then l.map InstalledModule.name
      else l.map InstalledModule.name ++ [m.name] := by
  induction l with
  | nil => simp [put]
  | cons n l ih =>
    rw [put]
    by_cases hn : n.name = m.name
    · simp [hn]
    · rw [if_neg hn, List.map_cons, ih]
      by_cases hmem : m.name ∈ l.map InstalledModule.name
      · rw [if_pos hmem, if_pos (by rw [List.map_cons]; exact List.mem_cons_of_mem _ hmem),
          List.map_cons]
      · rw [if_neg hmem, if_neg, List.map_cons, List.cons_append]
        rw [List.map_cons, List.mem_cons, not_or]
        exact ⟨fun h => hn h.symm, hmem⟩

/-- A module of a new name is appended. -/
lemma put_of_not_mem {m : InstalledModule} {l : List InstalledModule}
    (h : m.name ∉ l.map InstalledModule.name) : put m l = l ++ [m] := by
  induction l with
  | nil => rfl
  | cons n l ih =>
    rw [List.map_cons, List.mem_cons, not_or] at h
    rw [put, if_neg (Ne.symm h.1), ih h.2, List.cons_append]

@[simp] lemma get?_empty (M : String) : (({} : Registry).get? M) = none := rfl

/-- An addition is found under its own name and nowhere else. -/
lemma get?_add (r : Registry) (N : String) (version : Option String) (features : List String)
    (M : String) :
    (r.add N version features).get? M =
      if M = N then some ⟨N, version, Text.nameSet features⟩ else r.get? M :=
  find?_put ⟨N, version, Text.nameSet features⟩ r.modules M

/-- After a removal the name is not found, all others are as before. -/
lemma get?_remove (r : Registry) (N M : String) :
    (r.remove N).get? M = if M = N then none else r.get? M := by
  unfold remove get?
  rw [List.find?_filter]
  by_cases hM : M = N
  · rw [if_pos hM, List.find?_eq_none]
    intro m _
    by_cases hm : m.name = N <;> simp [hm, hM]
  · rw [if_neg hM]
    congr 1
    funext m
    by_cases hm : m.name = M <;> simp [hm, hM]

@[simp] lemma names_empty : ({} : Registry).names = [] := rfl

/-- A new name goes behind the others, a known one keeps its place. -/
lemma names_add (r : Registry) (N : String) (version : Option String) (features : List String) :
    (r.add N version features).names = if N ∈ r.names then r.names else r.names ++ [N] :=
  map_name_put ⟨N, version, Text.nameSet features⟩ r.modules

/-- The addition of a new name appends one module. -/
lemma modules_add_of_not_mem (version : Option String) (features : List String)
    (h : N ∉ r.names) : (r.add N version features).modules =
      r.modules ++ [⟨N, version, Text.nameSet features⟩] :=
  put_of_not_mem h

/-- A removal takes out the name and keeps the order of the others. -/
lemma names_remove (r : Registry) (N : String) :
    (r.remove N).names = r.names.filter fun M => M != N := by
  unfold remove names
  rw [List.filter_map]
  rfl

/-- Membership is membership of the name. -/
lemma contains_eq_true_iff : r.contains N = true ↔ N ∈ r.names := by
  simp [contains, get?, names]

/-! ### Names that stand once -/

/-- Additions keep the names distinct. -/
lemma nodup_names_add (h : r.names.Nodup) (N : String) (version : Option String)
    (features : List String) : (r.add N version features).names.Nodup := by
  rw [names_add]
  split
  · exact h
  · rename_i hN
    exact List.nodup_append.mpr ⟨h, List.nodup_singleton N, fun M hM _ hN' => by
      rw [List.mem_singleton.mp hN']
      rintro rfl
      exact hN hM⟩

/-- Removals keep the names distinct. -/
lemma nodup_names_remove (h : r.names.Nodup) (N : String) : (r.remove N).names.Nodup := by
  rw [names_remove]
  exact h.filter _

/-- If every name stands once, every entry is the entry of its name. -/
theorem get?_eq_some_iff (h : r.names.Nodup) {m : InstalledModule} :
    r.get? N = some m ↔ m ∈ r.modules ∧ m.name = N := by
  constructor
  · intro hm
    exact ⟨List.mem_of_find?_eq_some hm, by simpa using List.find?_some hm⟩
  · rintro ⟨hm, rfl⟩
    have hsome : (r.get? m.name).isSome := contains_eq_true_iff.mpr (List.mem_map_of_mem hm)
    obtain ⟨m', hm'⟩ := Option.isSome_iff_exists.mp hsome
    have hname : m'.name = m.name := by simpa using List.find?_some hm'
    rw [hm', List.inj_on_of_nodup_map h (List.mem_of_find?_eq_some hm') hm hname]

/-- The records are those the lookups give. -/
lemma mem_records_iff (h : r.names.Nodup) {record : ModuleRecord} :
    record ∈ r.records ↔ r.lookup record.name = some record := by
  unfold records lookup
  rw [List.mem_map, Option.map_eq_some_iff]
  refine exists_congr fun m => ?_
  rw [get?_eq_some_iff h]
  constructor
  · rintro ⟨hm, rfl⟩
    exact ⟨⟨hm, rfl⟩, rfl⟩
  · rintro ⟨⟨hm, -⟩, hrecord⟩
    exact ⟨hm, hrecord⟩

/-- The records are listed in the order of the names. -/
lemma map_name_records (r : Registry) : r.records.map ModuleRecord.name = r.names := by
  unfold records names
  rw [List.map_map]
  rfl

end Registry

end Requirements
