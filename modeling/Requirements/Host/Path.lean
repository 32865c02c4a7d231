import Requirements.Text.Split

/-!
# Paths

A path leads from a root, or from the directory where one stands, through directories to a file or
a directory. Parts that lead nowhere (empty ones and single dots) are left out; two dots lead back
to the directory above and are kept, since what is above depends on what is there.
-/

namespace Requirements

/-- A path: the slashes it starts with, and its parts. -/
structure Path where
  root : String
  parts : List String
deriving DecidableEq, Repr

namespace Path

/-- The part that leads to the directory above. -/
def up : String := ".."

/-- Whether a part leads nowhere. -/
def isIdle (part : String) : Bool :=
  part == "" || part == "."

/-- The root of a path with the given number of slashes in front. Two slashes are a root of their
own. -/
def rootOf (slashes : Nat) : String :=
  if slashes = 0 then "" else if slashes = 2 then "//" else "/"

/-- The path that a text writes. -/
def ofText (s : String) : Path where
  root := rootOf (s.toList.takeWhile (· == '/')).length
  parts := (Text.splitAt '/' s).filter fun part => !isIdle part

/-- Every part of a path that is read leads somewhere. -/
theorem isIdle_of_mem_parts_ofText {s part : String} (h : part ∈ (ofText s).parts) :
    isIdle part = false := by
  simpa [ofText] using (List.mem_filter.mp h).2

/-- The path as a text; the path that leads nowhere is a single dot. -/
def text (p : Path) : String :=
  if p.root.isEmpty && p.parts.isEmpty then "." else p.root ++ "/".intercalate p.parts

/-- Whether the path starts at the directory where one stands. -/
def isRelative (p : Path) : Bool :=
  p.root.isEmpty

/-- The path `p`, and from there `q`. -/
def append (p q : Path) : Path :=
  if q.isRelative then { p with parts := p.parts ++ q.parts } else q

/-- The last part of the path. -/
def name (p : Path) : String :=
  p.parts.getLast?.getD ""

/-- One step of following a path: from the reversed parts of the way so far to those of the way
with one part more. -/
def resolveStep (rooted : Bool) (above : List String) (part : String) : List String :=
  if part = up then
    match above with
    | [] => if rooted then [] else [up]
    | last :: rest => if last = up then up :: above else rest
  else part :: above

/-- The path without ways up, except at its start: what the path leads to where no part of it is a
link to elsewhere. A path from the directory where one stands stays one. -/
def resolve (p : Path) : Path :=
  { p with parts := (p.parts.foldl (resolveStep (!p.isRelative)) []).reverse }

end Path

end Requirements
