import Requirements.CommandLine.Word
import Requirements.Host.Path

/-!
# Invocations

The words of a command line say what to do: to list the modules of a system, or to check a program
against it. They are read from left to right. A word that is not understood is remembered, and the
line is refused at its end, unless a word before the end asks for help or for the version.
-/

namespace Requirements

namespace CommandLine

/-- How a report is shown. -/
inductive Format where
  | summary
  | json
  | markdown
deriving DecidableEq, Repr

namespace Format

/-- The format of a given name. -/
def ofName? : String → Option Format
  | "summary" => some summary
  | "json" => some json
  | "markdown" => some markdown
  | _ => none

end Format

/-- Where a program is to be found. -/
inductive ProgramSource where
  | inline (text : String)
  | standardInput
  | file (path : Path)
deriving DecidableEq, Repr

/-- What is to be done. -/
inductive Task where
  | listModules
  | check (source : ProgramSource)
deriving DecidableEq, Repr

/-- What a command line asks for. -/
structure Invocation where
  task : Task
  environment : Path
  options : List String
  config : Option Path
  format : Format
  actionableOnly : Bool
  hideShadowed : Bool
  verbosity : Nat
  logFile : Option Path
deriving DecidableEq, Repr

/-- Why nothing is done: the line cannot be understood, or it only asks for help or the version. -/
inductive Ending where
  | usage (e : UsageError)
  | help
  | version
deriving DecidableEq, Repr

/-- What has been read of a command line. -/
structure Draft where
  program : Option String := none
  expression : Option String := none
  environment : Option String := none
  options : List String := []
  config : Option String := none
  format : Format := .summary
  actionableOnly : Bool := false
  hideShadowed : Bool := false
  listModules : Bool := false
  verbosity : Nat := 0
  logFile : Option String := none
  surplus : List String := []
deriving DecidableEq, Repr

namespace Draft

/-! ### Options -/

/-- Takes an option without a value. -/
def takeFlag (d : Draft) : Flag → Except Ending Draft
  | .help => .error .help
  | .version => .error .version
  | .actionableOnly => .ok { d with actionableOnly := true }
  | .hideShadowed => .ok { d with hideShadowed := true }
  | .listModules => .ok { d with listModules := true }
  | .verbose => .ok { d with verbosity := d.verbosity + 1 }

/-- Takes options without values, one after another. -/
def takeFlags (d : Draft) : List Flag → Except Ending Draft
  | [] => .ok d
  | f :: fs =>
    match d.takeFlag f with
    | .ok d => d.takeFlags fs
    | .error e => .error e

/-- Takes an option with its value. -/
def takeSetting (d : Draft) (setting : Setting) (value : String) : Except Ending Draft :=
  match setting with
  | .expression => .ok { d with expression := some value }
  | .environment => .ok { d with environment := some value }
  | .option => .ok { d with options := d.options ++ [value] }
  | .config => .ok { d with config := some value }
  | .format =>
    match Format.ofName? value with
    | some format => .ok { d with format }
    | none => .error (.usage (.unknownFormat value))
  | .logFile => .ok { d with logFile := some value }

/-- Remembers words that are not understood. -/
def refuse (d : Draft) (words : List String) : Draft :=
  { d with surplus := d.surplus ++ words }

end Draft

/-! ### Letters -/

/-- The letters of one word: options without values, then perhaps one with a value, which may be in
the word, or else letters that stand for no option. -/
structure Cluster where
  flags : List Flag := []
  setting : Option (Setting × Option String) := none
  surplus : List String := []
deriving DecidableEq, Repr

/-- Options of a word of which the last one lacks its value. -/
structure Pending where
  flags : List Flag
  setting : Setting
deriving DecidableEq, Repr

/-- The value of an option in the same word, an equals sign in front of it left out. -/
def clusterValue : List Char → Option String
  | [] => none
  | '=' :: cs => some (String.ofList cs)
  | cs => some (String.ofList cs)

/-- The letters of a word from the option without a value `flag` on. -/
def clusterFrom (flag : Flag) : List Char → Except UsageError Cluster
  | [] => .ok { flags := [flag] }
  | c :: cs =>
    if c = '=' ∨ c = '-' then .error (.unexpectedValue flag)
    else
      match letterKey? c with
      | none => .ok { flags := [flag], surplus := [String.ofList ('-' :: c :: cs)] }
      | some (.setting s) => .ok { flags := [flag], setting := some (s, clusterValue cs) }
      | some (.flag next) =>
        (clusterFrom next cs).map fun cluster => { cluster with flags := flag :: cluster.flags }

/-- The options of a word. -/
def cluster (key : Key) (tail : List Char) : Except UsageError Cluster :=
  match key with
  | .flag flag => clusterFrom flag tail
  | .setting setting => .ok { setting := some (setting, clusterValue tail) }

/-- The option of a long name with its value. -/
def ofLong (key : Key) (value : Option String) : Except UsageError Cluster :=
  match key, value with
  | .flag flag, none => .ok { flags := [flag] }
  | .flag flag, some _ => .error (.unexpectedValue flag)
  | .setting setting, value => .ok { setting := some (setting, value) }

namespace Draft

/-! ### Reading -/

/-- Takes the options of a word, of which the last one may have a value. -/
def takeAll (d : Draft) (flags : List Flag) (setting : Option (Setting × String)) :
    Except Ending Draft := do
  let d ← d.takeFlags flags
  match setting with
  | none => return d
  | some (setting, value) => d.takeSetting setting value

/-- Takes the options of a word, unless the last one lacks its value. Then they are left for when
the next word is known. -/
def takeCluster (d : Draft) : Except UsageError Cluster → Except Ending (Draft × Option Pending)
  | .error e => .error (.usage e)
  | .ok c =>
    match c.setting with
    | some (setting, none) => .ok (d, some ⟨c.flags, setting⟩)
    | some (setting, some value) => (d.takeAll c.flags (some (setting, value))).map (·, none)
    | none => (d.takeAll c.flags none).map fun d => (d.refuse c.surplus, none)

/-- Takes an argument: the program's name, or too much. -/
def takeArgument (d : Draft) (text : String) : Draft :=
  match d.program with
  | none => { d with program := some text }
  | some _ => d.refuse [text]

/-- Takes words from left to right. Where options are `pending`, the word must be an argument. The
mark for arguments may stand in front of the program's name or right behind it, which is where
`atProgram` holds. -/
def takeWords (d : Draft) (pending : Option Pending) (atProgram : Bool) :
    List Word → Except Ending Draft
  | [] =>
    match pending with
    | none => .ok d
    | some p => .error (.usage (.missingValue p.setting))
  | word :: rest =>
    match pending, word with
    | some p, .argument value =>
      match d.takeAll p.flags (some (p.setting, value)) with
      | .error e => .error e
      | .ok d => d.takeWords none false rest
    | some p, _ => .error (.usage (.missingValue p.setting))
    | none, .argument text => (d.takeArgument text).takeWords none d.program.isNone rest
    | none, .separator =>
      if d.program.isNone || atProgram then d.takeWords none false rest
      else (d.refuse ["--"]).takeWords none false rest
    | none, .unknown text => (d.refuse [text]).takeWords none false rest
    | none, .long key value =>
      match d.takeCluster (ofLong key value) with
      | .error e => .error e
      | .ok (d, pending) => d.takeWords pending false rest
    | none, .letter key tail =>
      match d.takeCluster (cluster key tail) with
      | .error e => .error e
      | .ok (d, pending) => d.takeWords pending false rest

/-- What is to be done, once all words are read. -/
def task? (d : Draft) : Option Task :=
  if d.listModules then some .listModules
  else
    match d.expression, d.program with
    | some text, _ => some (.check (.inline text))
    | none, some "-" => some (.check .standardInput)
    | none, some path => some (.check (.file (.ofText path)))
    | none, none => none

/-- The invocation, once all words are read. -/
def finish (d : Draft) : Except UsageError Invocation :=
  match d.environment, d.surplus, d.task? with
  | none, _, _ => .error .missingEnvironment
  | _, word :: words, _ => .error (.unrecognized (word :: words))
  | _, _, none => .error .missingProgram
  | some environment, [], some task =>
    .ok
      { task
        environment := .ofText environment
        options := d.options
        config := d.config.map Path.ofText
        format := d.format
        actionableOnly := d.actionableOnly
        hideShadowed := d.hideShadowed
        verbosity := d.verbosity
        logFile := d.logFile.map Path.ofText }

end Draft

/-- The name and the version of the program. -/
def versionText : String := "reqlang 1.0.0"

namespace Invocation

/-- The invocation that the words of a command line ask for. -/
def ofTexts (texts : List String) : Except Ending Invocation :=
  match Word.ofTexts texts with
  | .error e => .error (.usage e)
  | .ok words =>
    match ({} : Draft).takeWords none false words with
    | .error e => .error e
    | .ok d => d.finish.mapError .usage

end Invocation

end CommandLine

end Requirements
