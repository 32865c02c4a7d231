/-!
# Sets of names

A set of names is kept as its increasing list, so that equal sets are equal lists and every answer
that lists names lists them in order. Names are ordered by code point.
-/

namespace Requirements

namespace Text

/-- Puts `x` at its place in an increasing list, unless it is there already. -/
def insertName (x : String) : List String → List String
  | [] => [x]
  | y :: ys =>
    if x < y then x :: y :: ys
    else if x = y then y :: ys
    else y :: insertName x ys

/-- The names of a list, in increasing order and without repetition. -/
def nameSet (names : List String) : List String :=
  names.foldr insertName []

/-- Putting a name into its place adds that name and no other. -/
theorem mem_insertName {x z : String} {l : List String} :
    z ∈ insertName x l ↔ z = x ∨ z ∈ l := by
  induction l with
  | nil => simp [insertName]
  | cons y ys ih =>
    simp only [insertName]
    split
    · simp
    · split
      · rename_i h; subst h; simp
      · simp only [List.mem_cons, ih]
        constructor
        · rintro (h | h | h) <;> simp [h]
        · rintro (h | h | h) <;> simp [h]

/-- The set of a list of names has the names of the list. -/
@[simp] theorem mem_nameSet {z : String} {names : List String} :
    z ∈ nameSet names ↔ z ∈ names := by
  induction names with
  | nil => simp [nameSet]
  | cons x xs ih =>
    have h : nameSet (x :: xs) = insertName x (nameSet xs) := rfl
    rw [h, mem_insertName, ih, List.mem_cons]

/-- The names of `names` that are not in `known`. -/
def without (names known : List String) : List String :=
  names.filter fun x => !known.contains x

/-- The stable increasing arrangement of `l` under the key `key`. -/
def sortBy {α : Type} (key : α → String) (l : List α) : List α :=
  l.mergeSort fun a b => !(key b < key a)

end Text

end Requirements
