import Requirements.CommandLine.Run

/-!
# The command line program

Reads the files that the command line names, runs the invocation on them, and writes the outcome and
the log.
-/

namespace Requirements

namespace CommandLine

/-- How the program is used. -/
def usageText : String :=
  "usage: reqlang [-h] [-e EXPRESSION] --env ENV [-o OPTION] [--config CONFIG]\n" ++
  "               [--format summary|json|markdown] [--actionable-only] [--hide-shadowed]\n" ++
  "               [--list-modules] [-v] [--log-file LOG_FILE] [--version] [program]"

/-- The name of an option with a value. -/
def Setting.label : Setting → String
  | .expression => "-e/--expression"
  | .environment => "--env"
  | .option => "-o/--option"
  | .config => "--config"
  | .format => "--format"
  | .logFile => "--log-file"

/-- The name of an option without a value. -/
def Flag.label : Flag → String
  | .help => "-h/--help"
  | .actionableOnly => "--actionable-only"
  | .hideShadowed => "--hide-shadowed"
  | .listModules => "--list-modules"
  | .verbose => "-v/--verbose"
  | .version => "--version"

/-- What is wrong with a command line, in words. -/
def UsageError.message : UsageError → String
  | .ambiguous word => "ambiguous option: " ++ word
  | .missingValue setting => "argument " ++ setting.label ++ ": expected one argument"
  | .unexpectedValue flag => "argument " ++ flag.label ++ ": ignored explicit argument"
  | .unknownFormat value => "argument --format: invalid choice: " ++ Text.quoted value
  | .unrecognized words => "unrecognized arguments: " ++ " ".intercalate words
  | .missingEnvironment => "the following arguments are required: --env"
  | .missingProgram => "a program file or --expression is required"

/-- Why a file could not be read. -/
def faultOf : IO.Error → FileFault
  | .noFileOrDirectory .. => .missing
  | .inappropriateType none .. => .isDirectory
  | .inappropriateType .. => .notDirectory
  | e => .other (toString e)

/-- What a file holds. -/
def readFile (path : Path) : IO (Except FileFault String) := do
  try
    return .ok (← IO.FS.readFile path.text)
  catch e =>
    return .error (faultOf e)

/-- All of the standard input. -/
def readInput : IO String := do
  (← IO.getStdin).readToEnd

/-- The sources of an invocation, read from the files that it names. -/
def readSources (i : Invocation) : IO Sources := do
  let environment := (← readFile i.environment).map Yaml.read?
  let settings ← match i.config with
    | some path => do pure ((← readFile path).map Yaml.read?)
    | none => pure (.error .missing)
  let program ← match i.task with
    | .check (.file path) => readFile path
    | .check .standardInput => do pure (.ok (← readInput))
    | _ => pure (.ok "")
  return { platform := "linux", environment, settings, program }

/-- Writes the lines of a journal to the console and to its files. -/
def writeJournal (j : Journal) : IO Unit := do
  for line in j.console do
    IO.eprintln line
  for (path, lines) in j.files do
    IO.FS.createDirAll { path with parts := path.parts.dropLast }.text
    IO.FS.writeFile path.text (String.join (lines.map (· ++ "\n")))

/-- Runs an invocation. -/
def perform (i : Invocation) : IO UInt32 := do
  let setup : LogSetup := { consoleLevel := consoleLevelOf i.verbosity, file := i.logFile }
  let journal := ({} : Journal).setUp Path.resolve setup
  writeJournal journal
  let outcome := i.run (← readSources i)
  writeJournal (outcome.log.foldl (fun j r => j.log r) journal)
  IO.print outcome.output
  if let some reason := outcome.error then
    IO.eprintln ("error: " ++ reason)
  return outcome.status.code.toUInt32

end CommandLine

end Requirements

open Requirements.CommandLine in
/-- Runs the program. -/
def main (args : List String) : IO UInt32 := do
  match Invocation.ofTexts args with
  | .ok i => perform i
  | .error .help =>
    IO.println usageText
    return 0
  | .error .version =>
    IO.println versionText
    return 0
  | .error (.usage e) =>
    IO.eprintln (usageText ++ "\nreqlang: error: " ++ e.message)
    return 2
