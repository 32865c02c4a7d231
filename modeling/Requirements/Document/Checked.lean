import Requirements.Decimal.Shortest
import Requirements.Document.Basic

/-!
# Checking documents

A document is checked as a whole: every part that is not as it should be is reported, by the path
that leads to it. A check answers a value, or the paths of all problems in order.

The checks stand for those that a validator of typed records makes by default. They take a text or a
list of texts only as it is. For a truth value they also take the numbers zero and one and some
words, whatever their case; this is what `asBool` says.
-/

namespace Requirements

/-- The keys and indices that lead to a part of a document, outermost first. -/
abbrev DocumentPath := List String

/-- The result of a check: a value, or the paths of the problems. -/
abbrev Checked (α : Type) := Except (List DocumentPath) α

namespace Checked

variable {α β γ : Type}

/-- The problem that a part of a document is not as it should be. -/
def invalid : Checked α := .error [[]]

/-- The paths of the problems. -/
def problems : Checked α → List DocumentPath
  | .ok _ => []
  | .error paths => paths

/-- A check of the part that `key` leads to. -/
def under (key : String) : Checked α → Checked α
  | .ok a => .ok a
  | .error paths => .error (paths.map (key :: ·))

/-- Two checks of different parts. -/
def both (a : Checked α) (b : Checked β) : Checked (α × β) :=
  match a, b with
  | .ok a, .ok b => .ok (a, b)
  | a, b => .error (a.problems ++ b.problems)

/-- The checks of all elements of a list. -/
def all : List (Checked α) → Checked (List α)
  | [] => .ok []
  | c :: cs => (both c (all cs)).map fun (a, as) => a :: as

end Checked

namespace Document

/-- The key of an entry as part of a path. A truth value counts as a number there. -/
def keyText : Scalar → String
  | .null => "None"
  | .bool b => if b then "1" else "0"
  | .int n => toString n
  | .float x => Decimal.shortestText x
  | .date s | .text s => s

/-- The value that a mapping has under a key. -/
def get? (entries : List (Scalar × Document)) (key : String) : Option Document :=
  (entries.find? fun e => e.1 == .text key).map Prod.snd

/-- A text. -/
def asText : Document → Checked String
  | scalar (.text s) => .ok s
  | _ => .invalid

/-- The words that stand for a truth value, whatever their case. -/
def truthWords : List (String × Bool) :=
  [("0", false), ("off", false), ("f", false), ("false", false), ("n", false), ("no", false),
    ("1", true), ("on", true), ("t", true), ("true", true), ("y", true), ("yes", true)]

/-- A truth value: itself, zero or one, or a word for it. -/
def asBool : Document → Checked Bool
  | scalar (.bool b) => .ok b
  | scalar (.int n) => if n = 0 then .ok false else if n = 1 then .ok true else .invalid
  | scalar (.float x) =>
    if x == 0.0 then .ok false else if x == 1.0 then .ok true else .invalid
  | scalar (.text s) =>
    match truthWords.lookup (s.map Char.toLower) with
    | some b => .ok b
    | none => .invalid
  | _ => .invalid

/-- A list of texts. -/
def asTexts : Document → Checked (List String)
  | list items =>
    Checked.all (items.zipIdx.map fun (item, i) => Checked.under (toString i) item.asText)
  | _ => .invalid

/-- The value under a key, or `default` if there is none. -/
def field {α : Type} (entries : List (Scalar × Document)) (key : String) (default : α)
    (check : Document → Checked α) : Checked α :=
  match get? entries key with
  | some d => Checked.under key (check d)
  | none => .ok default

/-- Checks that a mapping has no other keys than the given ones. -/
def onlyKeys (entries : List (Scalar × Document)) (known : List String) : Checked Unit :=
  match entries.filter fun e => !known.any fun key => e.1 == .text key with
  | [] => .ok ()
  | unknown => .error (unknown.map fun e => [keyText e.1])

end Document

/-- Why a document is of no use. -/
inductive DocumentError where
  | malformed
  | notMapping
  | invalid (paths : List DocumentPath)
deriving DecidableEq, Repr

end Requirements
