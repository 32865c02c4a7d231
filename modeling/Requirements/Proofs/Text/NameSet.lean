import Mathlib.Data.List.Nodup
import Mathlib.Tactic.Lemma
import Requirements.Text.NameSet

/-!
# Sets and arrangements of names

The set of a list of names depends only on which names are in the list, and the arrangement of a
list by distinct names does not depend on the order that the list had.
-/

namespace Requirements

namespace Text

/-- Putting a name into its place keeps the order. -/
lemma pairwise_insertName (x : String) {l : List String} (h : l.Pairwise (· < ·)) :
    (insertName x l).Pairwise (· < ·) := by
  induction l with
  | nil => simp [insertName]
  | cons y ys ih =>
    obtain ⟨hy, hys⟩ := List.pairwise_cons.mp h
    rw [insertName]
    split
    · rename_i hlt
      refine List.pairwise_cons.mpr ⟨fun z hz => ?_, h⟩
      rcases List.mem_cons.mp hz with rfl | hz
      · exact hlt
      · exact String.lt_trans hlt (hy z hz)
    · rename_i hnot
      split
      · exact h
      · rename_i hne
        have hlt : y < x := by
          by_contra hge
          exact hne (String.le_antisymm (String.not_lt.mp hge) (String.not_lt.mp hnot))
        refine List.pairwise_cons.mpr ⟨fun z hz => ?_, ih hys⟩
        rcases mem_insertName.mp hz with rfl | hz
        · exact hlt
        · exact hy z hz

/-- A set of names is in strict order, so that no name is in it twice. -/
lemma pairwise_nameSet (names : List String) : (nameSet names).Pairwise (· < ·) := by
  induction names with
  | nil => exact .nil
  | cons x xs ih => exact pairwise_insertName x ih

/-- Lists with the same names have the same set of names. -/
theorem nameSet_eq_of_mem_iff {names names' : List String} (h : ∀ z, z ∈ names ↔ z ∈ names') :
    nameSet names = nameSet names' := by
  have hnodup (l : List String) : (nameSet l).Nodup := by
    refine (pairwise_nameSet l).imp ?_
    rintro a b hlt rfl
    exact String.lt_irrefl a hlt
  refine List.Perm.eq_of_pairwise (fun a b _ _ hab hba => ?_) (pairwise_nameSet names)
    (pairwise_nameSet names') ?_
  · exact absurd hba (String.lt_asymm hab)
  · refine (List.perm_ext_iff_of_nodup (hnodup names) (hnodup names')).mpr fun z => ?_
    rw [mem_nameSet, mem_nameSet, h]

variable {α : Type} {key : α → String} {l l' : List α}

/-- Sorting by a key puts the keys in order. -/
lemma pairwise_sortBy (key : α → String) (l : List α) :
    (sortBy key l).Pairwise fun a b => key a ≤ key b := by
  let le (a b : α) : Bool := !(decide (key b < key a))
  have hle (a b : α) : le a b = true ↔ key a ≤ key b := by
    simp only [le, Bool.not_eq_true', decide_eq_false_iff_not, String.not_lt]
  have hsorted : (l.mergeSort le).Pairwise fun a b => le a b = true := by
    refine List.pairwise_mergeSort (fun a b c hab hbc => ?_) (fun a b => ?_) l
    · rw [hle] at hab hbc ⊢
      exact String.le_trans hab hbc
    · rw [Bool.or_eq_true, hle, hle]
      exact String.le_total _ _
  exact hsorted.imp fun {a b} hab => (hle a b).mp hab

/-- Two orders of a list with distinct keys have the same arrangement. -/
theorem sortBy_eq_of_perm (hnodup : (l.map key).Nodup) (h : l'.Perm l) :
    sortBy key l' = sortBy key l := by
  have hsort (m : List α) : (sortBy key m).Perm m := List.mergeSort_perm _ _
  refine List.Perm.eq_of_pairwise (fun a b ha hb hab hba => ?_) (pairwise_sortBy key l')
    (pairwise_sortBy key l) ((hsort l').trans (h.trans (hsort l).symm))
  exact List.inj_on_of_nodup_map hnodup (h.subset ((hsort l').subset ha)) ((hsort l).subset hb)
    (String.le_antisymm hab hba)

/-- A list whose keys do not change under a map is arranged before or after it alike. -/
theorem map_sortBy {β : Type} (key' : β → String) (f : α → β) (hkey : ∀ a, key' (f a) = key a)
    (l : List α) : (sortBy key l).map f = sortBy key' (l.map f) :=
  List.map_mergeSort fun a _ b _ => by rw [hkey, hkey]

end Text

end Requirements
