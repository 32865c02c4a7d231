import Requirements.Document.Checked
import Requirements.Environment.Registry

/-!
# Reading system descriptions

A system is described by a mapping with the keys `osname`, `ithreads`, `modules`, `includes`, `libs`
and `programs`. Under `modules` each name has a mapping with a version and features, or just a
version, or nothing. A version that looks like a fraction is refused, since `0.90` and `0.9` are
one number but two versions.
-/

namespace Requirements

namespace SystemDescription

/-! ### Modules -/

/-- A version: none, a text, or an integer. -/
def asVersion : Document → Checked (Option String)
  | .scalar .null => .ok none
  | .scalar (.int n) => .ok (some (toString n))
  | .scalar (.text s) => .ok (some s)
  | _ => .invalid

/-- The version and the features of a module. -/
structure ModuleEntry where
  version : Option String := none
  features : List String := []
deriving DecidableEq, Repr

/-- The entry of a module. -/
def asModule : Document → Checked ModuleEntry
  | .mapping entries =>
    let fields := Checked.both
      (Document.field entries "version" none asVersion)
      (Document.field entries "features" [] Document.asTexts)
    (Checked.both fields (Document.onlyKeys entries ["version", "features"])).map
      fun ((version, features), _) => { version, features }
  | .scalar .null => .ok {}
  | .scalar (.int n) => .ok { version := some (toString n) }
  | .scalar (.text s) => .ok { version := some s }
  | _ => .invalid

/-- Whether a document is a fraction. -/
def isFraction : Document → Bool
  | .scalar (.float _) => true
  | _ => false

/-- The entry of a module with its name. -/
def asNamedModule (entry : Scalar × Document) : Checked (String × ModuleEntry) :=
  let name : Checked String := match entry.1 with
    | .text name => .ok name
    | _ => Checked.under "[key]" .invalid
  Checked.under (Document.keyText entry.1) (Checked.both name (asModule entry.2))

/-- The modules of a system. One fraction in the place of a version spoils them all. -/
def asModules : Document → Checked (List (String × ModuleEntry))
  | .mapping entries =>
    if entries.any fun e => isFraction e.2 then .invalid
    else Checked.all (entries.map asNamedModule)
  | _ => .invalid

/-! ### Systems -/

/-- The keys of a description. -/
def keys : List String := ["osname", "ithreads", "modules", "includes", "libs", "programs"]

/-- The registry of the given modules. -/
def registryOf (modules : List (String × ModuleEntry)) : Registry :=
  modules.foldl (fun r m => r.add m.1 m.2.version m.2.features) {}

/-- The system that the entries of a mapping describe, on a platform of the given name unless they
name another. -/
def ofEntries (platform : String) (entries : List (Scalar × Document)) :
    Checked SystemDescription :=
  let platformFields := Checked.both
    (Document.field entries "osname" platform Document.asText)
    (Document.field entries "ithreads" false Document.asBool)
  let files := Checked.both (Document.field entries "includes" [] Document.asTexts) <|
    Checked.both (Document.field entries "libs" [] Document.asTexts)
      (Document.field entries "programs" [] Document.asTexts)
  let fields := Checked.both platformFields <|
    Checked.both (Document.field entries "modules" [] asModules) files
  (Checked.both fields (Document.onlyKeys entries keys)).map
    fun (((osname, ithreads), modules, includes, libs, programs), _) =>
      { registry := registryOf modules
        inventory :=
          { headers := Text.nameSet includes
            libraries := Text.nameSet libs
            programs := Text.nameSet programs }
        osname
        ithreads }

/-- The system that a document describes. An empty document describes a system without anything on
it. -/
def ofDocument (platform : String) (d : Document) : Except DocumentError SystemDescription :=
  if d.isBlank then (ofEntries platform []).mapError .invalid
  else
    match d with
    | .mapping entries => (ofEntries platform entries).mapError .invalid
    | _ => .error .notMapping

/-- What is wrong with a description, in words. -/
def errorMessage : DocumentError → String
  | .malformed => "Malformed environment YAML"
  | .notMapping => "Environment YAML must be a mapping"
  | .invalid _ => "Invalid environment description"

end SystemDescription

end Requirements
