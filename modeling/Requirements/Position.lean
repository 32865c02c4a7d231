/-!
# Positions in a text

A position is a place between two characters of a text: how many characters stand before it, and
its line and column, both counted from one.
-/

namespace Requirements

/-- A place in a text. -/
structure Position where
  offset : Nat
  line : Nat
  column : Nat
deriving DecidableEq, Repr

namespace Position

/-- The place in front of a text. -/
def start : Position := ⟨0, 1, 1⟩

/-- The place behind the character `c`. -/
def advance (p : Position) (c : Char) : Position :=
  if c = '\n' then ⟨p.offset + 1, p.line + 1, 1⟩ else ⟨p.offset + 1, p.line, p.column + 1⟩

/-- The place behind the characters `cs`. -/
def advanceOver (p : Position) (cs : List Char) : Position :=
  cs.foldl advance p

@[simp] theorem advanceOver_nil (p : Position) : p.advanceOver [] = p := rfl

@[simp] theorem advanceOver_cons (p : Position) (c : Char) (cs : List Char) :
    p.advanceOver (c :: cs) = (p.advance c).advanceOver cs := rfl

/-- Running over a text is running over its parts one after the other. -/
@[simp] theorem advanceOver_append (p : Position) (cs ds : List Char) :
    p.advanceOver (cs ++ ds) = (p.advanceOver cs).advanceOver ds := by
  simp [advanceOver]

/-- Every character moves the offset by one, line breaks included. -/
@[simp] theorem offset_advance (p : Position) (c : Char) :
    (p.advance c).offset = p.offset + 1 := by
  simp only [advance]; split <;> rfl

/-- The offset grows by the number of characters run over. -/
@[simp] theorem offset_advanceOver (p : Position) (cs : List Char) :
    (p.advanceOver cs).offset = p.offset + cs.length := by
  induction cs generalizing p with
  | nil => rfl
  | cons c cs ih => simp only [advanceOver_cons, ih, offset_advance, List.length_cons]; omega

/-- The place at an offset. Offsets beyond the end continue the last line. -/
def ofOffset (cs : List Char) (offset : Nat) : Position :=
  let p := start.advanceOver (cs.take offset)
  ⟨offset, p.line, p.column + (offset - cs.length)⟩

end Position

end Requirements
