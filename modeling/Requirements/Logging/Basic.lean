import Requirements.Host.Path

/-!
# Logging

A journal passes records on to handlers, of which each writes those of its level and above to the
console or to a file. Handlers of others are kept as they are: setting the journal up again adjusts,
adds and removes only its own handlers, so that there is one console handler and, for each file, at
most one file handler.
-/

namespace Requirements

/-! ### Levels -/

/-- The level from which on records are passed on to the handlers. -/
def debugLevel : Int := 10

/-- The level of the console unless it is given. -/
def warningLevel : Int := 30

/-- The level of the console, from the number of times that more is asked for. -/
def consoleLevelOf (verbosity : Int) : Int :=
  if verbosity ≤ 0 then warningLevel else if verbosity = 1 then 20 else debugLevel

/-- The name of a level. -/
def levelName (level : Int) : String :=
  if level = 10 then "DEBUG"
  else if level = 20 then "INFO"
  else if level = 30 then "WARNING"
  else if level = 40 then "ERROR"
  else if level = 50 then "CRITICAL"
  else "Level " ++ toString level

/-! ### Handlers and journals -/

/-- Where a handler writes. A file is known by its resolved path. -/
inductive LogTarget where
  | console
  | file (path : Path)
deriving DecidableEq, Repr

/-- A handler: whether it belongs to the journal, where it writes, and from which level on. -/
structure LogHandler where
  own : Bool
  target : LogTarget
  level : Int
deriving DecidableEq, Repr

/-- A record: its level, where it comes from, and what it says. -/
structure LogRecord where
  level : Int
  source : String
  message : String
deriving DecidableEq, Repr

/-- How a journal is to be set up. -/
structure LogSetup where
  consoleLevel : Int := warningLevel
  file : Option Path := none
  fileLevel : Int := debugLevel
  replace : Bool := true
deriving DecidableEq, Repr

/-- Handlers in the order in which they were attached, and what has been written. A file that was
opened is there even if it is empty. -/
structure Journal where
  handlers : List LogHandler := []
  console : List String := []
  files : List (Path × List String) := []
deriving DecidableEq, Repr

namespace LogRecord

/-- The record as it is written. -/
def text (r : LogRecord) : String :=
  levelName r.level ++ " - " ++ r.source ++ " - " ++ r.message

end LogRecord

namespace LogHandler

/-- Whether the handler writes to the console. -/
def isConsole (h : LogHandler) : Bool :=
  h.target == .console

/-- Whether the handler is the journal's own and writes to the console. -/
def isOwnConsole (h : LogHandler) : Bool :=
  h.own && h.isConsole

/-- Whether the handler is the journal's own and writes to a file. -/
def isOwnFile (h : LogHandler) : Bool :=
  h.own && !h.isConsole

/-- Whether the handler is the journal's own and its file resolves to `path`. -/
def isOwnFileAt (resolve : Path → Path) (path : Path) (h : LogHandler) : Bool :=
  h.own && match h.target with
    | .file p => resolve p == path
    | .console => false

/-- The handler with another level. -/
def withLevel (level : Int) (h : LogHandler) : LogHandler :=
  { h with level }

end LogHandler

/-- Changes the first element of which `p` holds. -/
def changeFirst {α : Type} (p : α → Bool) (f : α → α) : List α → List α
  | [] => []
  | a :: as => if p a then f a :: as else a :: changeFirst p f as

namespace Journal

/-! ### Setting up

What a path resolves to depends on the directory where one stands and on the links of the file
system, so the resolution of paths is a parameter. -/

section

variable (resolve : Path → Path)

/-- Gives the console handler a level, and attaches one if there is none. -/
def setConsole (level : Int) (hs : List LogHandler) : List LogHandler :=
  if hs.any LogHandler.isOwnConsole then
    changeFirst LogHandler.isOwnConsole (LogHandler.withLevel level) hs
  else hs ++ [⟨true, .console, level⟩]

/-- Detaches the journal's handlers of all files but the one at `path`. -/
def dropFiles (path : Option Path) (hs : List LogHandler) : List LogHandler :=
  hs.filter fun h => !h.isOwnFile || path.any fun p => h.isOwnFileAt resolve p

/-- Gives the handler of the file at `path` a level, and attaches one if there is none. -/
def setFile (path : Path) (level : Int) (hs : List LogHandler) : List LogHandler :=
  if hs.any (LogHandler.isOwnFileAt resolve path) then
    hs.map fun h => if h.isOwnFileAt resolve path then h.withLevel level else h
  else hs ++ [⟨true, .file path, level⟩]

/-- The handlers after a setup. -/
def handlersAfter (s : LogSetup) (hs : List LogHandler) : List LogHandler :=
  let file := s.file.map resolve
  let hs := setConsole s.consoleLevel hs
  let hs := if s.replace then dropFiles resolve file hs else hs
  match file with
  | none => hs
  | some path => setFile resolve path s.fileLevel hs

/-- What has been written to the file at `path`, if it was opened. -/
def content? (j : Journal) (path : Path) : Option (List String) :=
  j.files.lookup path

/-- Puts the content of a file in the place of what it held, or adds the file. -/
def putContent (path : Path) (lines : List String) :
    List (Path × List String) → List (Path × List String)
  | [] => [(path, lines)]
  | f :: fs => if f.1 = path then (path, lines) :: fs else f :: putContent path lines fs

/-- The files once the one at `path` is opened: it is emptied, or else left as it is. -/
def openFile (path : Path) (empty : Bool) (files : List (Path × List String)) :
    List (Path × List String) :=
  let kept := if empty then [] else (files.lookup path).getD []
  putContent path kept files

/-- Sets the journal up. A file without a handler is opened, and emptied if other files are to be
replaced by it. -/
def setUp (s : LogSetup) (j : Journal) : Journal :=
  let files :=
    match s.file.map resolve with
    | none => j.files
    | some path =>
      if j.handlers.any (LogHandler.isOwnFileAt resolve path) then j.files
      else openFile path s.replace j.files
  { j with handlers := handlersAfter resolve s j.handlers, files }

end

/-! ### Writing -/

/-- Writes lines where a handler writes. -/
def emit (lines : List String) (j : Journal) (h : LogHandler) : Journal :=
  match h.target with
  | .console => { j with console := j.console ++ lines }
  | .file path =>
    { j with files := putContent path ((j.content? path).getD [] ++ lines) j.files }

/-- Passes a record on to the journal's handlers. Where there are no handlers yet, warnings still
reach the console, as bare messages. -/
def log (r : LogRecord) (j : Journal) : Journal :=
  if j.handlers.isEmpty then
    if r.level < warningLevel then j
    else { j with console := j.console ++ Text.splitAt '\n' r.message }
  else if r.level < debugLevel then j
  else
    let takers := j.handlers.filter fun h => h.own && h.level ≤ r.level
    takers.foldl (emit (Text.splitAt '\n' r.text)) j

end Journal

end Requirements
