/-!
# Settings of an evaluation
-/

namespace Requirements

/-- How an evaluation asks its questions: whether an answer is kept and used again for the same
question, and how many seconds an answer may take. -/
structure Settings where
  memoize : Bool := true
  timeout : Option Float := none
deriving Repr

end Requirements
