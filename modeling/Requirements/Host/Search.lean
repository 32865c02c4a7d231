import Requirements.Host.FileTree

/-!
# Searching for headers and programs

Header files are searched in a list of directories. Programs are searched in the directories of a
search path, unless their name says where they are. Directories outside the tree hold nothing.
-/

namespace Requirements

/-- The name of an operating system, from the name of the platform it runs on. -/
def osnameOf (platform : String) : String :=
  if platform.startsWith "win" then "MSWin32"
  else if platform.startsWith "linux" then "linux"
  else platform

namespace Search

/-- The directories of the system's own headers. -/
def systemHeaders : List String := ["/usr/include", "/usr/local/include"]

/-- The directories that a list with colons names, without the empty ones. -/
def directories (list : String) : List String :=
  (Text.splitAt ':' list).filter fun d => !d.isEmpty

/-- Where headers are searched by default: the system's directories and those of further lists. -/
def headerDirectories (lists : List String) : List Path :=
  (systemHeaders ++ lists.flatMap directories).map Path.ofText

/-- Whether a path leads to a file. -/
def isFile {α : Type} (t : FileTree α) (p : Path) : Bool :=
  match t.find p with
  | .ok (.file _) => true
  | _ => false

/-- Whether one of the directories holds a header. -/
def hasHeader {α : Type} (t : FileTree α) (directories : List Path) (name : String) : Bool :=
  directories.any fun d => isFile t (d.append (Path.ofText name))

/-- Whether a text leads to a file that can be run. Of a file the tree says whether it can be. -/
def isRunnable (t : FileTree Bool) (s : String) : Bool :=
  match t.findText s with
  | .ok (.file runnable) => runnable
  | _ => false

/-- The place of a name in a directory; the empty directory is the one where one stands. -/
def place (directory name : String) : String :=
  if name.startsWith "/" then name
  else if directory.isEmpty || directory.endsWith "/" then directory ++ name
  else directory ++ "/" ++ name

/-- Whether there is a program of the given name: where it says, if it has a slash, and else in a
directory of the search path. -/
def hasProgram (t : FileTree Bool) (searchPath name : String) : Bool :=
  if name.toList.contains '/' then isRunnable t name
  else !searchPath.isEmpty &&
    (Text.splitAt ':' searchPath).any fun d => isRunnable t (place d name)

end Search

end Requirements
