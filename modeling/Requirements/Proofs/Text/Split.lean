import Mathlib.Tactic.Lemma
import Requirements.Text.Split

/-!
# Lines and other parts of texts

Texts in which a separator does not occur are found again when the text that joins them with the
separator is split. A text is split into lines at every line break, however it is written.
-/

namespace Requirements

namespace Text

/-! ### Parts that were joined -/

section

variable {separator : Char}

/-- A text without the separator is one part. -/
lemma splitChars_eq_singleton {part : List Char} (h : separator ∉ part) :
    splitChars separator part = [part] := by
  induction part with
  | nil => rfl
  | cons c part ih =>
    rw [List.mem_cons, not_or] at h
    rw [splitChars, if_neg (Ne.symm h.1), ih h.2]

/-- The first part ends at the first separator. -/
lemma splitChars_append_cons {part : List Char} (h : separator ∉ part) (more : List Char) :
    splitChars separator (part ++ separator :: more) = part :: splitChars separator more := by
  induction part with
  | nil => simp [splitChars]
  | cons c part ih =>
    rw [List.mem_cons, not_or] at h
    rw [List.cons_append, splitChars, if_neg (Ne.symm h.1), ih h.2]

/-- A joined text has the characters of its parts and those of the joint. -/
theorem mem_toList_intercalate {joint : String} {c : Char} (hc : c ∉ joint.toList)
    {parts : List String} :
    c ∈ (joint.intercalate parts).toList ↔ ∃ part ∈ parts, c ∈ part.toList := by
  match parts with
  | [] => simp
  | [part] => simp
  | first :: second :: others =>
    rw [String.intercalate_cons_cons, String.toList_append, String.toList_append, List.mem_append,
      List.mem_append, mem_toList_intercalate hc]
    simp [hc]

/-- Parts that are joined by a separator are those that the whole is split into, unless one of them
holds the separator. -/
theorem splitAt_intercalate {joint : String} (hjoint : joint.toList = [separator])
    {parts : List String} (hne : parts ≠ []) (h : ∀ part ∈ parts, separator ∉ part.toList) :
    splitAt separator (joint.intercalate parts) = parts := by
  obtain ⟨first, others, rfl⟩ := List.exists_cons_of_ne_nil hne
  clear hne
  unfold splitAt
  induction others generalizing first with
  | nil =>
    have hfirst : separator ∉ first.toList := h first List.mem_cons_self
    simp [splitChars_eq_singleton hfirst]
  | cons second others ih =>
    obtain ⟨hfirst, hothers⟩ := List.forall_mem_cons.mp h
    rw [String.intercalate_cons_cons, String.toList_append, String.toList_append, hjoint,
      List.append_assoc, List.singleton_append, splitChars_append_cons hfirst, List.map_cons,
      ih second hothers, String.ofList_toList]

/-- A part is made of characters of the whole. -/
theorem subset_of_mem_splitChars {cs part : List Char} (h : part ∈ splitChars separator cs) :
    part ⊆ cs := by
  induction cs generalizing part with
  | nil => simpa [splitChars] using h
  | cons c cs ih =>
    obtain ⟨first, parts, hsplit⟩ := List.exists_cons_of_ne_nil (splitChars_ne_nil separator cs)
    rw [splitChars, hsplit] at h
    rw [hsplit] at ih
    split at h
    · rcases List.mem_cons.mp h with rfl | h
      · exact List.nil_subset _
      · exact List.Subset.trans (ih h) (List.subset_cons_self c cs)
    · rcases List.mem_cons.mp h with rfl | h
      · exact List.cons_subset_cons c (ih List.mem_cons_self)
      · exact List.Subset.trans (ih (List.mem_cons_of_mem _ h)) (List.subset_cons_self c cs)

/-- No part has the separator in it. -/
lemma separator_notMem_of_mem_splitAt {s part : String} (h : part ∈ splitAt separator s) :
    separator ∉ part.toList := by
  obtain ⟨cs, hcs, rfl⟩ := List.mem_map.mp h
  rw [String.toList_ofList]
  exact separator_notMem_of_mem_splitChars hcs

end

/-! ### Lines -/

/-- The lines of a text. -/
def lines (s : String) : List String :=
  splitAt '\n' (String.ofList (unifyBreaks s.toList))

/-- There is no line break in the text. -/
def OneLine (s : String) : Prop :=
  '\n' ∉ s.toList ∧ '\r' ∉ s.toList

instance (s : String) : Decidable (OneLine s) :=
  inferInstanceAs (Decidable ('\n' ∉ s.toList ∧ '\r' ∉ s.toList))

/-- Joined parts are on one line exactly if each of them is. -/
lemma oneLine_intercalate {joint : String} (hjoint : OneLine joint) {parts : List String} :
    OneLine (joint.intercalate parts) ↔ ∀ part ∈ parts, OneLine part := by
  simp only [OneLine, mem_toList_intercalate hjoint.1, mem_toList_intercalate hjoint.2, not_exists,
    not_and]
  exact ⟨fun h part hpart => ⟨h.1 part hpart, h.2 part hpart⟩,
    fun h => ⟨fun part hpart => (h part hpart).1, fun part hpart => (h part hpart).2⟩⟩

/-- A text without carriage returns has its breaks unified already. -/
lemma unifyBreaks_eq_self {cs : List Char} (h : '\r' ∉ cs) : unifyBreaks cs = cs := by
  fun_induction unifyBreaks cs with
  | case1 cs => exact absurd List.mem_cons_self h
  | case2 c cs _ ih =>
    rw [List.mem_cons, not_or] at h
    rw [if_neg (Ne.symm h.1), ih h.2]
  | case3 => rfl

/-- No carriage return is left after unifying breaks. -/
lemma return_notMem_unifyBreaks (cs : List Char) : '\r' ∉ unifyBreaks cs := by
  fun_induction unifyBreaks cs with
  | case1 cs ih => simpa using ih
  | case2 c cs _ ih =>
    rw [List.mem_cons, not_or]
    refine ⟨?_, ih⟩
    split
    · decide
    · rename_i hc
      exact Ne.symm hc
  | case3 => simp

/-- A line holds no line break. -/
theorem oneLine_of_mem_lines {s line : String} (h : line ∈ lines s) : OneLine line := by
  refine ⟨separator_notMem_of_mem_splitAt h, ?_⟩
  obtain ⟨cs, hcs, rfl⟩ := List.mem_map.mp h
  rw [String.toList_ofList] at hcs ⊢
  exact fun hmem => return_notMem_unifyBreaks _ (subset_of_mem_splitChars hcs hmem)

/-- Texts without line breaks that are joined by line feeds are the lines of the whole. -/
theorem lines_intercalate {parts : List String} (hne : parts ≠ []) (h : ∀ s ∈ parts, OneLine s) :
    lines ("\n".intercalate parts) = parts := by
  have hreturn : '\r' ∉ ("\n".intercalate parts).toList := by
    rw [mem_toList_intercalate (by decide)]
    rintro ⟨s, hs, hmem⟩
    exact (h s hs).2 hmem
  rw [lines, unifyBreaks_eq_self hreturn, String.ofList_toList]
  exact splitAt_intercalate (by decide) hne fun s hs => (h s hs).1

end Text

end Requirements
