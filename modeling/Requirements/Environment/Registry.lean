import Requirements.Environment.Basic

/-!
# Registries of modules and inventories of files

A registry lists installed modules, each name once, in the order in which they were added; adding a
module anew replaces its entry in its place. An inventory lists the header files, libraries and
programs of a system. Together with the platform they make up an environment that never refuses an
answer.
-/

namespace Requirements

/-- An installed module with its features. -/
structure InstalledModule where
  name : String
  version : Option String
  features : List String
deriving DecidableEq, Repr

namespace InstalledModule

/-- What a look-up of the module answers. -/
def record (m : InstalledModule) : ModuleRecord :=
  ⟨m.name, m.version⟩

end InstalledModule

/-- The installed modules, in the order in which they were added. -/
structure Registry where
  modules : List InstalledModule := []
deriving DecidableEq, Repr

namespace Registry

/-- The entry of a name. -/
def get? (r : Registry) (name : String) : Option InstalledModule :=
  r.modules.find? fun m => m.name == name

/-- Puts a module in the place of the one with its name, or at the end. -/
def put (m : InstalledModule) : List InstalledModule → List InstalledModule
  | [] => [m]
  | n :: rest => if n.name = m.name then m :: rest else n :: put m rest

/-- Adds a module or replaces the one with its name. -/
def add (r : Registry) (name : String) (version : Option String) (features : List String) :
    Registry :=
  ⟨put ⟨name, version, Text.nameSet features⟩ r.modules⟩

/-- The registry without the module of the given name. -/
def remove (r : Registry) (name : String) : Registry :=
  ⟨r.modules.filter fun m => m.name != name⟩

/-- Whether a module of the given name is installed. -/
def contains (r : Registry) (name : String) : Bool :=
  (r.get? name).isSome

/-- The record of a module, if it is installed. -/
def lookup (r : Registry) (name : String) : Option ModuleRecord :=
  (r.get? name).map InstalledModule.record

/-- Whether a module is installed and has a feature. -/
def hasFeature (r : Registry) (name feature : String) : Bool :=
  (r.get? name).any fun m => m.features.contains feature

/-- The records of all modules, in the order of the registry. -/
def records (r : Registry) : List ModuleRecord :=
  r.modules.map InstalledModule.record

/-- The registry of the given modules without features. -/
def ofVersions (versions : List (String × Option String)) : Registry :=
  versions.foldl (fun r v => r.add v.1 v.2 []) {}

end Registry

/-- The header files, libraries and programs of a system. -/
structure Inventory where
  headers : List String := []
  libraries : List String := []
  programs : List String := []
deriving DecidableEq, Repr

namespace Inventory

/-- The names listed for one kind of probe. -/
def names (i : Inventory) : Probe → List String
  | .header => i.headers
  | .library => i.libraries
  | .program => i.programs

/-- Replaces the names listed for one kind of probe. -/
def setNames (i : Inventory) (kind : Probe) (names : List String) : Inventory :=
  match kind with
  | .header => { i with headers := names }
  | .library => { i with libraries := names }
  | .program => { i with programs := names }

/-- Whether a name is listed. -/
def has (i : Inventory) (kind : Probe) (name : String) : Bool :=
  (i.names kind).contains name

/-- Lists a name. -/
def install (i : Inventory) (kind : Probe) (name : String) : Inventory :=
  i.setNames kind (Text.insertName name (i.names kind))

/-- Takes a name off the list. -/
def uninstall (i : Inventory) (kind : Probe) (name : String) : Inventory :=
  i.setNames kind ((i.names kind).filter fun n => n != name)

end Inventory

/-- A system described by lists. -/
structure SystemDescription where
  registry : Registry := {}
  inventory : Inventory := {}
  osname : String := "linux"
  ithreads : Bool := false
deriving DecidableEq, Repr

namespace SystemDescription

/-- The answer that the lists give. -/
def answer (s : SystemDescription) : (q : Query) → q.Answer
  | .lookup name => s.registry.lookup name
  | .feature name feature => s.registry.hasFeature name feature
  | .probe kind name => s.inventory.has kind name

/-- The environment that the lists describe, except that it refuses where `refusal?` says so. -/
def environmentWith (s : SystemDescription) (refusal? : Query → Option Refusal) : Environment where
  answer q :=
    match refusal? q with
    | some refusal => .error refusal
    | none => .ok (s.answer q)
  osname := s.osname
  ithreads := s.ithreads

/-- The environment that the lists describe. -/
def environment (s : SystemDescription) : Environment :=
  s.environmentWith fun _ => none

end SystemDescription

end Requirements
