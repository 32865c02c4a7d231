import Requirements.Text.Json

/-!
# Reports

A report says whether the requirements hold and lists what was found not to hold: each entry names
a place in the program, what kind of failure it is, whether the user can do something about it, and
whether it is shadowed, that is, whether something around it holds nevertheless.
-/

namespace Requirements

/-- The kinds of failure. -/
inductive FailureKind where
  | missingModule
  | versionMismatch
  | missingFeature
  | platformMismatch
  | missingInclude
  | missingLib
  | missingProgram
  | noAlternative
  | constant
  | exclusiveConflict
deriving DecidableEq, Repr

namespace FailureKind

/-- The name of a kind. -/
def name : FailureKind → String
  | missingModule => "missing_module"
  | versionMismatch => "version_mismatch"
  | missingFeature => "missing_feature"
  | platformMismatch => "platform_mismatch"
  | missingInclude => "missing_include"
  | missingLib => "missing_lib"
  | missingProgram => "missing_program"
  | noAlternative => "no_alternative"
  | constant => "constant"
  | exclusiveConflict => "exclusive_conflict"

/-- All kinds. -/
def all : List FailureKind :=
  [missingModule, versionMismatch, missingFeature, platformMismatch, missingInclude, missingLib,
    missingProgram, noAlternative, constant, exclusiveConflict]

/-- The kind that a text names. -/
def ofName? (s : String) : Option FailureKind :=
  all.find? fun k => k.name == s

/-- Whether installing or enabling something could help. Neither the platform nor a constant can be
changed. -/
def isActionable : FailureKind → Bool
  | platformMismatch | constant => false
  | _ => true

end FailureKind

/-- One failure: the labels of the parts of the program from the outside to it, and what it is. -/
structure Entry where
  path : List String
  kind : FailureKind
  actionable : Bool
  detail : String
  shadowed : Bool
deriving DecidableEq, Repr

namespace Entry

/-- The place of the failure as one text. -/
def location (e : Entry) : String :=
  " / ".intercalate e.path

/-- The entry in JSON. -/
def toJson (depth : Nat) (e : Entry) : String :=
  Text.jsonObject depth
    [("path", Text.jsonList (depth + 1) (e.path.map Text.jsonString)),
      ("kind", Text.jsonString e.kind.name),
      ("actionable", Text.jsonBool e.actionable),
      ("detail", Text.jsonString e.detail),
      ("shadowed", Text.jsonBool e.shadowed)]

/-- The note behind a shadowed failure. -/
def shadowNote (e : Entry) : String :=
  if e.shadowed then " (alternative held)" else ""

/-- The entry as a row of a table. -/
def toRow (e : Entry) : String :=
  "| `" ++ e.path.getLastD "" ++ e.shadowNote ++ "` | " ++ e.kind.name ++ " | " ++
    (if e.actionable then "yes" else "no") ++ " | " ++ e.detail ++ " |"

/-- The entry as a line of a list. -/
def toLine (e : Entry) : String :=
  "  - " ++ e.location ++ ": " ++ e.detail ++ e.shadowNote

end Entry

/-- The outcome of an evaluation for a user. -/
structure Report where
  result : Bool
  entries : List Entry
  options : List String
deriving DecidableEq, Repr

/-- Which entries to show: those that are actionable or not, if asked, and the shadowed ones or
not. -/
structure EntryFilter where
  actionable : Option Bool := none
  showShadowed : Bool := true
deriving DecidableEq, Repr

namespace EntryFilter

/-- Whether an entry is shown. -/
def shows (f : EntryFilter) (e : Entry) : Bool :=
  f.actionable.all (· == e.actionable) && (f.showShadowed || !e.shadowed)

end EntryFilter

namespace Report

/-- The entries that a filter shows. -/
def failures (r : Report) (f : EntryFilter) : List Entry :=
  r.entries.filter f.shows

/-- The report with only the entries that a filter shows. -/
def filtered (r : Report) (f : EntryFilter) : Report :=
  { r with entries := r.failures f }

/-- The outcome in words. -/
def status (r : Report) : String :=
  if r.result then "SATISFIED" else "NOT SATISFIED"

/-- A summary of the report: the outcome, how many failures there are, and the options. -/
def summary (r : Report) : String :=
  "\n".intercalate <|
    ["Requirements " ++ r.status,
      "  Failures: " ++ toString r.entries.length,
      "  Actionable: " ++ toString (r.failures { actionable := some true }).length] ++
    if r.options.isEmpty then []
    else ["  Options: " ++ ", ".intercalate (r.options.map fun o => ":" ++ o)]

/-- The summary, with a line for each entry. -/
def listing (r : Report) : String :=
  "\n".intercalate (r.summary :: r.entries.map Entry.toLine)

/-- The report in Markdown, its entries as the rows of a table. -/
def toMarkdown (r : Report) : String :=
  "\n".intercalate <|
    ["# Requirements Report", "", "**Status:** " ++ r.status, ""] ++
    if r.entries.isEmpty then ["No failing requirements."]
    else
      ["| Requirement | Kind | Actionable | Detail |", "|---|---|---|---|"] ++
        r.entries.map Entry.toRow

/-- The name of the JSON format. -/
def formatName : String := "reqlang-report/1.0"

/-- The report in JSON. -/
def toJson (r : Report) : String :=
  Text.jsonObject 0
    [("report_version", Text.jsonString formatName),
      ("result", Text.jsonBool r.result),
      ("options", Text.jsonList 1 (r.options.map Text.jsonString)),
      ("entries", Text.jsonList 1 (r.entries.map (Entry.toJson 2)))]

end Report

end Requirements
