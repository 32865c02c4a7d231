/-!
# Documents

The value of a settings file: scalars, lists and mappings. A mapping keeps the order in which its
entries are written. A date is a scalar of its own, which no setting takes. Binary values and sets,
which YAML writes with a tag, are no values of a document, as its reader knows no tags.
-/

namespace Requirements

/-- A value without parts. A date, with the time of day or without it, is kept as it is written. -/
inductive Scalar where
  | null
  | bool (value : Bool)
  | int (value : Int)
  | float (value : Float)
  | date (written : String)
  | text (value : String)
deriving BEq, Repr, Inhabited

/-- The value of a settings file. -/
inductive Document where
  | scalar (value : Scalar)
  | list (items : List Document)
  | mapping (entries : List (Scalar × Document))
deriving Repr, Inhabited

namespace Document

/-- The absent value. -/
def null : Document := scalar .null

/-- A document that holds nothing: no value, a zero, or an empty text, list or mapping. -/
def isBlank : Document → Bool
  | scalar .null => true
  | scalar (.bool value) => !value
  | scalar (.int value) => value == 0
  | scalar (.float value) => value == 0.0
  | scalar (.date _) => false
  | scalar (.text value) => value.isEmpty
  | list items => items.isEmpty
  | mapping entries => entries.isEmpty

end Document

end Requirements
