import Requirements.Program.Parser
import Requirements.Text.Similarity

/-!
# Checking the names of a script

A script becomes a program when its names hold together: no definition takes a reserved name or a
name that is taken, every reference leads to a definition, and no definition refers to itself, be it
through others. The checks are made in this order, and the first that fails is reported.
-/

namespace Requirements

/-- Where an expression stands in a script. -/
inductive Place where
  | definition (name : String)
  | master
deriving DecidableEq, Repr

namespace Place

/-- A place in words. -/
def wording : Place → String
  | definition name => "definition of '" ++ name ++ "'"
  | master => "master expression"

end Place

/-- What can be wrong with the names and tags of a script. Suggestions are names that may have been
meant. -/
inductive SemanticFault where
  | reserved (name : String) (line : Nat)
  | duplicate (name : String) (firstLine line : Nat)
  | undefined (name : String) (place : Place) (suggestion : Option String)
  | cycle (path : List String) (line : Nat)
  | unknownTag (tag : String) (suggestion : Option String)
deriving DecidableEq, Repr

namespace SemanticFault

/-- A suggestion as the end of a message, between the given marks. -/
def suggestionText (opening closing : String) : Option String → String
  | none => ""
  | some name => "; did you mean '" ++ opening ++ name ++ closing ++ "'?"

/-- What is wrong, in words. -/
def message : SemanticFault → String
  | reserved name _ => "'" ++ name ++ "' is a builtin macro and cannot be redefined"
  | duplicate name firstLine _ =>
    "Duplicate definition of '" ++ name ++ "' (first defined on line " ++ toString firstLine ++ ")"
  | undefined name place suggestion =>
    "Undefined macro or choice '\x7b" ++ name ++ "\x7d' in " ++ place.wording ++
      suggestionText "\x7b" "\x7d" suggestion
  | cycle path _ => "Reference cycle: " ++ " -> ".intercalate path
  | unknownTag tag suggestion =>
    "Unknown option tag ':" ++ tag ++ "'" ++ suggestionText ":" "" suggestion

/-- The line of the definition at fault, where there is one. -/
def line? : SemanticFault → Option Nat
  | reserved _ line | duplicate _ _ line | cycle _ line => some line
  | undefined _ _ _ | unknownTag _ _ => none

end SemanticFault

namespace Resolver

/-! ### Names -/

/-- Checks the names of definitions, of which `earlier` have been checked. -/
def checkNames (earlier : List Definition) : List Definition → Except SemanticFault Unit
  | [] => .ok ()
  | d :: rest =>
    if (Platform.ofName? d.name).isSome then .error (.reserved d.name d.line)
    else
      match earlier.find? fun e => e.name == d.name with
      | some first => .error (.duplicate d.name first.line d.line)
      | none => checkNames (earlier ++ [d]) rest

/-- Checks that every reference of an expression leads to one of `names`. -/
def checkReferences (names : List String) (place : Place) (e : Expr) : Except SemanticFault Unit :=
  match e.references.find? fun name => !names.contains name with
  | some name => .error (.undefined name place (Text.closest? name names))
  | none => .ok ()

/-- Checks the references of every definition, then those of the master expression. -/
def checkAllReferences (definitions : List Definition) (master : Expr) :
    Except SemanticFault Unit := do
  let names := definitions.map Definition.name
  definitions.forM fun d => checkReferences names (.definition d.name) d.body
  checkReferences names .master master

/-! ### Cycles

The references are followed depth first. A name met on the path that leads to it closes a cycle; a
name from which every path has been followed is finished. -/

/-- The names that the definition of each name refers to. -/
abbrev Graph := List (String × List String)

/-- The graph of the references among definitions. -/
def graphOf (definitions : List Definition) : Graph :=
  definitions.map fun d => (d.name, d.body.references)

/-- Follows the references of `name`, which was reached over `path`, the last name first. Answers
the finished names, or the cycle that was met, from its first name back to it. -/
def follow (graph : Graph) :
    Nat → List String → List String → String → Except (List String) (List String)
  | 0, _, finished, _ => .ok finished
  | fuel + 1, path, finished, name => do
    let here := name :: path
    let finished ← ((graph.lookup name).getD []).foldlM (fun finished target =>
      if here.contains target then
        .error (here.reverse.dropWhile (· != target) ++ [target])
      else if finished.contains target then .ok finished
      else follow graph fuel here finished target) finished
    return name :: finished

/-- The first cycle met when the names are followed in order. -/
def findCycle? (graph : Graph) : Option (List String) :=
  let walk : Except (List String) (List String) := graph.foldlM (fun finished node =>
    if finished.contains node.1 then .ok finished
    else follow graph (graph.length + 1) [] finished node.1) []
  match walk with
  | .ok _ => none
  | .error cycle => some cycle

/-- Checks that no definition refers to itself, directly or through others. -/
def checkCycles (definitions : List Definition) : Except SemanticFault Unit :=
  match findCycle? (graphOf definitions) with
  | none => .ok ()
  | some cycle =>
    let first := cycle.headD ""
    let line := ((definitions.find? fun d => d.name == first).map Definition.line).getD 0
    .error (.cycle cycle line)

end Resolver

/-- Checks the names of a script. A script without a master expression requires nothing. -/
def Script.resolve (s : Script) : Except SemanticFault Program := do
  let master := s.master.getD (.bool true)
  Resolver.checkNames [] s.definitions
  Resolver.checkAllReferences s.definitions master
  Resolver.checkCycles s.definitions
  return { definitions := s.definitions, master }

/-- Why a text is not a program. -/
inductive CompileError where
  | malformed (fault : Located SyntaxFault)
  | semantic (fault : SemanticFault)
deriving DecidableEq, Repr

/-- Reads a text as a program. -/
def Program.compile (source : String) : Except CompileError Program :=
  match Script.parse source with
  | .error e => .error (.malformed e)
  | .ok s =>
    match s.resolve with
    | .error fault => .error (.semantic fault)
    | .ok p => .ok p

end Requirements
