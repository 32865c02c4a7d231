import Requirements.CommandLine.Invocation
import Requirements.Diagnostic
import Requirements.Document.Yaml
import Requirements.Environment.Reader
import Requirements.Host.Search
import Requirements.Logging.Basic
import Requirements.Report.Builder
import Requirements.Settings.Reader

/-!
# Runs

An invocation is run on what its files hold. The outcome is what is written and the exit status:
zero if the requirements hold, one if they do not, and two if something given is of no use, in which
case nothing is written but the reason.
-/

namespace Requirements

namespace CommandLine

/-- What the files of an invocation hold, and the platform it runs on. A document that cannot be
read as one is absent. -/
structure Sources where
  platform : String
  environment : Except FileFault (Option Document)
  settings : Except FileFault (Option Document)
  program : Except FileFault String

/-- Why a run comes to no report. -/
inductive RunError where
  | unreadable (path : Path) (fault : FileFault)
  | environment (e : DocumentError)
  | settings (path : Path) (e : DocumentError)
  | compile (e : CompileError)
  | selection (fault : SemanticFault)
  | evaluation (e : EvalError)

namespace RunError

/-- The reason in words. -/
def message : RunError → String
  | unreadable path fault => fault.message path
  | environment e => SystemDescription.errorMessage e
  | settings path e => Settings.errorMessage path.text e
  | compile e => e.text
  | selection fault => fault.text
  | evaluation e => e.message

end RunError

/-- The exit status of a run. -/
inductive Status where
  | success
  | failure
  | invalid
deriving DecidableEq, Repr

namespace Status

/-- The status as a number. -/
def code : Status → Nat
  | success => 0
  | failure => 1
  | invalid => 2

/-- The status of a report. -/
def ofResult (result : Bool) : Status :=
  if result then success else failure

end Status

/-- What a run does: its exit status, what it writes, why it fails, and what it logs. -/
structure Outcome where
  status : Status
  output : String
  error : Option String
  log : List LogRecord
deriving DecidableEq, Repr

namespace Sources

/-- The document of a file that must be there. -/
def document (path : Path) (fault : DocumentError → RunError) :
    Except FileFault (Option Document) → Except RunError Document
  | .error e => .error (.unreadable path e)
  | .ok none => .error (fault .malformed)
  | .ok (some d) => .ok d

/-- The sources of an invocation in a tree of files, given how a file is read as a document and as a
text. -/
def ofTree {α : Type} (t : FileTree α) (asDocument : α → Option Document) (asText : α → String)
    (platform input : String) (i : Invocation) : Sources where
  platform
  environment := (t.read i.environment).map asDocument
  settings :=
    match i.config with
    | some path => (t.read path).map asDocument
    | none => .error .missing
  program :=
    match i.task with
    | .check (.file path) => (t.read path).map asText
    | _ => .ok input

end Sources

namespace Invocation

/-! ### Reading the sources -/

/-- The system that is described. -/
def system (i : Invocation) (s : Sources) : Except RunError SystemDescription := do
  let d ← Sources.document i.environment .environment s.environment
  (SystemDescription.ofDocument (osnameOf s.platform) d).mapError .environment

/-- The settings: the defaults, unless there is a file of them. -/
def settings (i : Invocation) (s : Sources) : Except RunError Settings :=
  match i.config, s.settings with
  | none, _ | some _, .error .missing | some _, .error .notDirectory => .ok {}
  | some path, content => do
    let d ← Sources.document path (.settings path) content
    (Settings.ofDocument d).mapError (.settings path)

/-- The text of the program. Line breaks of a file count as line feeds. -/
def programText (source : ProgramSource) (s : Sources) : Except RunError String :=
  match source, s.program with
  | .inline text, _ => .ok text
  | .standardInput, .ok text => .ok text
  | .file _, .ok text => .ok (String.ofList (Text.unifyBreaks text.toList))
  | .file path, .error fault => .error (.unreadable path fault)
  | .standardInput, .error fault => .error (.unreadable (.ofText "-") fault)

/-! ### Tasks -/

/-- Which entries of the report are shown. -/
def entryFilter (i : Invocation) : EntryFilter where
  actionable := if i.actionableOnly then some true else none
  showShadowed := !i.hideShadowed

/-- The report as it is written. -/
def render (i : Invocation) (r : Report) : String :=
  let shown := r.filtered i.entryFilter
  match i.format with
  | .summary => shown.listing
  | .json => shown.toJson
  | .markdown => shown.toMarkdown

/-- Checks a program against a system. -/
def check (i : Invocation) (source : ProgramSource) (s : Sources) (system : SystemDescription) :
    Except RunError Report := do
  let settings ← i.settings s
  let text ← programText source s
  let program ← (Program.compile text).mapError .compile
  let selection ← (program.select i.options).mapError .selection
  (selection.check system.environment settings).mapError .evaluation

/-- A module in the list of modules. -/
def moduleLine (m : ModuleRecord) : String :=
  match m.version with
  | none => m.name
  | some version => m.name ++ " " ++ version

/-- The modules of a system, in the order of their names. -/
def moduleList (system : SystemDescription) : String :=
  String.join <| (Text.sortBy ModuleRecord.name system.registry.records).map fun m =>
    moduleLine m ++ "\n"

/-! ### The run -/

/-- Where the records of a run come from. -/
def logSource : String := "requirements"

/-- The record that a system has been read. -/
def loadedRecord (i : Invocation) (system : SystemDescription) : LogRecord where
  level := 20
  source := logSource
  message := "Loaded " ++ toString system.registry.modules.length ++ " module(s) from " ++
    i.environment.text

/-- The outcome where something given is of no use. -/
def refusal (log : List LogRecord) (e : RunError) : Outcome where
  status := .invalid
  output := ""
  error := some e.message
  log := log ++ [⟨debugLevel, logSource, "Aborted: " ++ e.message⟩]

/-- Runs an invocation. -/
def run (i : Invocation) (s : Sources) : Outcome :=
  match i.system s with
  | .error e => refusal [] e
  | .ok system =>
    let log := [i.loadedRecord system]
    match i.task with
    | .listModules =>
      { status := .success, output := moduleList system, error := none, log }
    | .check source =>
      match i.check source s system with
      | .error e => refusal log e
      | .ok r =>
        { status := .ofResult r.result, output := i.render r ++ "\n", error := none, log }

end Invocation

end CommandLine

end Requirements
