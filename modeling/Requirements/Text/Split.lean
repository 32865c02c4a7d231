/-!
# Splitting texts

A text is split at every occurrence of a separator, so that putting the separator back between the
parts gives the text again.
-/

namespace Requirements

namespace Text

/-- The parts of `cs` between the separators. -/
def splitChars (separator : Char) : List Char → List (List Char)
  | [] => [[]]
  | c :: cs =>
    if c = separator then [] :: splitChars separator cs
    else
      match splitChars separator cs with
      | part :: parts => (c :: part) :: parts
      | [] => [[c]]

/-- A text has at least one part, the empty text the empty part. -/
theorem splitChars_ne_nil (separator : Char) (cs : List Char) : splitChars separator cs ≠ [] := by
  cases cs with
  | nil => simp [splitChars]
  | cons c cs =>
    simp only [splitChars]
    split
    · simp
    · split <;> simp

/-- The separators put back between the parts give the text again. -/
theorem intercalate_splitChars (separator : Char) (cs : List Char) :
    [separator].intercalate (splitChars separator cs) = cs := by
  induction cs with
  | nil => simp [splitChars, List.intercalate]
  | cons c cs ih =>
    obtain ⟨part, parts, hsplit⟩ := List.exists_cons_of_ne_nil (splitChars_ne_nil separator cs)
    rw [hsplit] at ih
    by_cases h : c = separator
    · simp_all [splitChars, List.intercalate]
    · cases parts with
      | nil => simp_all [splitChars, List.intercalate]
      | cons next parts => simp_all [splitChars, List.intercalate]

/-- No part holds a separator. -/
theorem separator_notMem_of_mem_splitChars {separator : Char} {cs part : List Char}
    (h : part ∈ splitChars separator cs) : separator ∉ part := by
  induction cs generalizing part with
  | nil => simp_all [splitChars]
  | cons c cs ih =>
    obtain ⟨first, parts, hsplit⟩ := List.exists_cons_of_ne_nil (splitChars_ne_nil separator cs)
    rw [hsplit] at ih
    by_cases hc : c = separator
    · simp only [splitChars, hc, if_true, hsplit, List.mem_cons] at h
      rcases h with rfl | h
      · simp
      · exact ih (List.mem_cons.mpr h)
    · simp only [splitChars, hc, if_false, hsplit, List.mem_cons] at h
      rcases h with rfl | h
      · simpa [Ne.symm hc] using ih (List.mem_cons_self)
      · exact ih (List.mem_cons_of_mem _ h)

/-- The parts of a text between the separators. -/
def splitAt (separator : Char) (s : String) : List String :=
  (splitChars separator s.toList).map String.ofList

/-- The text with every line break written as a line feed. -/
def unifyBreaks : List Char → List Char
  | '\r' :: '\n' :: cs => '\n' :: unifyBreaks cs
  | c :: cs => (if c = '\r' then '\n' else c) :: unifyBreaks cs
  | [] => []

end Text

end Requirements
