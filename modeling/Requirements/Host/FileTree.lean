import Requirements.Host.Path
import Requirements.Text.Quoted

/-!
# File trees

A file tree holds files by the parts of their paths. A directory is there as soon as something is in
it, and the top of the tree always is. A path is followed part by part, so that every directory on
the way must be there; a way out of the tree finds nothing.
-/

namespace Requirements

/-- Why a file cannot be read. -/
inductive FileFault where
  | missing
  | isDirectory
  | notDirectory
  | other (text : String)
deriving DecidableEq, Repr

namespace FileFault

/-- What is wrong with the file at a path, in words. -/
def message (path : Path) : FileFault → String
  | missing => "[Errno 2] No such file or directory: " ++ Text.quoted path.text
  | isDirectory => "[Errno 21] Is a directory: " ++ Text.quoted path.text
  | notDirectory => "[Errno 20] Not a directory: " ++ Text.quoted path.text
  | other text => text

end FileFault

/-- Files with what they hold, each by the parts of its path from the top of the tree. -/
structure FileTree (α : Type) where
  files : List (List String × α) := []
deriving Repr

/-- What a path leads to. -/
inductive FileNode (α : Type) where
  | file (content : α)
  | directory
deriving Repr

namespace FileTree

variable {α : Type}

/-- Whether something lies below the given parts. -/
def holdsBelow (t : FileTree α) (parts : List String) : Bool :=
  t.files.any fun f => parts.length < f.1.length && f.1.take parts.length == parts

/-- What lies at the given parts. -/
def node? (t : FileTree α) (parts : List String) : Option (FileNode α) :=
  match t.files.find? fun f => f.1 == parts with
  | some f => some (.file f.2)
  | none => if parts.isEmpty || t.holdsBelow parts then some .directory else none

/-- Follows parts from a place in the tree, whose own parts are given in reverse. -/
def follow (t : FileTree α) (here : List String) : List String → Except FileFault (FileNode α)
  | [] =>
    match t.node? here.reverse with
    | some n => .ok n
    | none => .error .missing
  | part :: parts =>
    match t.node? here.reverse with
    | none => .error .missing
    | some (.file _) => .error .notDirectory
    | some .directory =>
      if Path.isIdle part then t.follow here parts
      else if part = Path.up then
        match here with
        | [] => .error .missing
        | _ :: above => t.follow above parts
      else t.follow (part :: here) parts

/-- What a path leads to from the top of the tree. -/
def find (t : FileTree α) (p : Path) : Except FileFault (FileNode α) :=
  if p.isRelative then t.follow [] p.parts else .error .missing

/-- What a path leads to when it is taken as it is written: a text that ends in a slash leads to a
directory or nowhere, and so does the empty text. -/
def findText (t : FileTree α) (s : String) : Except FileFault (FileNode α) :=
  if s.isEmpty || s.startsWith "/" then .error .missing else t.follow [] (Text.splitAt '/' s)

/-- What the file at a path holds. -/
def read (t : FileTree α) (p : Path) : Except FileFault α :=
  match t.find p with
  | .ok (.file content) => .ok content
  | .ok .directory => .error .isDirectory
  | .error fault => .error fault

/-- Puts a file in the place of the one with its path, or adds it. -/
def putFile (parts : List String) (content : α) :
    List (List String × α) → List (List String × α)
  | [] => [(parts, content)]
  | f :: fs => if f.1 = parts then (parts, content) :: fs else f :: putFile parts content fs

/-- The tree with what the file at a path holds replaced, or with a new file there. -/
def write (t : FileTree α) (p : Path) (content : α) : FileTree α :=
  ⟨putFile p.resolve.parts content t.files⟩

/-- The tree of files that are named by texts. -/
def ofFiles (files : List (String × α)) : FileTree α :=
  ⟨files.map fun f => ((Path.ofText f.1).parts, f.2)⟩

end FileTree

end Requirements
