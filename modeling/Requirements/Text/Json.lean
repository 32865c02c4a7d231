/-!
# Indented JSON text

Values are put together from their texts. An element of a list or object stands on a line of its
own, two spaces further to the right than the brackets around it.
-/

namespace Requirements

namespace Text

/-- The characters that stand for `c` in a JSON string. Only quotes, backslashes and the control
characters below the space are escaped. -/
def jsonChar (c : Char) : List Char :=
  if c = '"' then ['\\', '"']
  else if c = '\\' then ['\\', '\\']
  else if c = '\n' then ['\\', 'n']
  else if c = '\r' then ['\\', 'r']
  else if c = '\t' then ['\\', 't']
  else if c = '\x08' then ['\\', 'b']
  else if c = '\x0c' then ['\\', 'f']
  else if c.toNat < 0x10 then ['\\', 'u', '0', '0', '0', Nat.digitChar c.toNat]
  else if c.toNat < 0x20 then ['\\', 'u', '0', '0', '1', Nat.digitChar (c.toNat - 0x10)]
  else [c]

/-- A text as a JSON string. -/
def jsonString (s : String) : String :=
  String.ofList ('"' :: s.toList.flatMap jsonChar ++ ['"'])

/-- A truth value in JSON. -/
def jsonBool (b : Bool) : String :=
  if b then "true" else "false"

/-- The blanks in front of a line at the given depth. -/
def jsonIndent (depth : Nat) : String :=
  String.ofList (List.replicate (2 * depth) ' ')

/-- Elements between brackets that stand at the given depth. -/
def jsonBlock (opening closing : String) (depth : Nat) (elements : List String) : String :=
  if elements.isEmpty then opening ++ closing
  else
    opening ++ "\n" ++ ",\n".intercalate (elements.map fun e => jsonIndent (depth + 1) ++ e) ++
      "\n" ++ jsonIndent depth ++ closing

/-- A list whose brackets stand at the given depth. -/
def jsonList (depth : Nat) (elements : List String) : String :=
  jsonBlock "[" "]" depth elements

/-- An object whose brackets stand at the given depth. -/
def jsonObject (depth : Nat) (fields : List (String × String)) : String :=
  jsonBlock "\x7b" "\x7d" depth (fields.map fun f => jsonString f.1 ++ ": " ++ f.2)

end Text

end Requirements
