/-!
# Ranges of code points

A property of characters is tabulated as the closed ranges of code points that have it.
-/

namespace Requirements

namespace Text

/-- Whether the code point of `c` lies in one of the closed ranges of `table`. -/
def inRanges (table : List (Nat × Nat)) (c : Char) : Bool :=
  table.any fun r => r.1 ≤ c.toNat && c.toNat ≤ r.2

/-- A character is in a table exactly when some range of it holds its code point. -/
@[simp] theorem inRanges_iff {table : List (Nat × Nat)} {c : Char} :
    inRanges table c = true ↔ ∃ r ∈ table, r.1 ≤ c.toNat ∧ c.toNat ≤ r.2 := by
  simp [inRanges]

end Text

end Requirements
