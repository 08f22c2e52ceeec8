import ShapeGraph.Json.Basic

/-!
# JSON texts

## Main definitions

* `Json.quote` — a text as a JSON string.
* `Json.compact` — a value without any blanks.
* `Json.pretty` — a value with each item and member on a line of its own.

## Implementation notes

Of all characters only the quote, the backslash and the control characters below U+0020 are written
as escapes.
-/

set_option autoImplicit false

namespace ShapeGraph

namespace Json

/-! ## Strings -/

/-- The digit of a number below sixteen. -/
def hexDigit (n : Nat) : Char := Nat.digitChar (n % 16)

/-- How a character stands inside a string. -/
def escapeChar (c : Char) : List Char :=
  if c = '"' then ['\\', '"']
  else if c = '\\' then ['\\', '\\']
  else if c.toNat = 8 then ['\\', 'b']
  else if c.toNat = 12 then ['\\', 'f']
  else if c = '\n' then ['\\', 'n']
  else if c = '\r' then ['\\', 'r']
  else if c = '\t' then ['\\', 't']
  else if c.toNat < 32 then ['\\', 'u', '0', '0', hexDigit (c.toNat / 16), hexDigit c.toNat]
  else [c]

/-- A text between quotes. -/
def quote (text : String) : String :=
  String.ofList ('"' :: text.toList.flatMap escapeChar ++ ['"'])

/-! ## Without blanks -/

mutual

/-- The text of a value without blanks. -/
def compact : Json → String
  | .null => "null"
  | .bool b => if b then "true" else "false"
  | .num n => n.render
  | .str s => quote s
  | .arr items => "[" ++ compactItems items ++ "]"
  | .obj members => "\x7b" ++ compactMembers members ++ "\x7d"

/-- The texts of items, with commas between them. -/
def compactItems : List Json → String
  | [] => ""
  | [v] => v.compact
  | v :: w :: rest => v.compact ++ "," ++ compactItems (w :: rest)

/-- The texts of members, with commas between them. -/
def compactMembers : List (String × Json) → String
  | [] => ""
  | [(k, v)] => quote k ++ ":" ++ v.compact
  | (k, v) :: m :: rest => quote k ++ ":" ++ v.compact ++ "," ++ compactMembers (m :: rest)

end

/-! ## On many lines -/

/-- The start of a line at some depth. -/
def newLine (depth : Nat) : String := "\n" ++ String.ofList (List.replicate (2 * depth) ' ')

mutual

/-- The text of a value at some depth, with each item and member on its own line. -/
def prettyAt (depth : Nat) : Json → String
  | .arr [] => "[]"
  | .arr items => "[" ++ prettyItems (depth + 1) items ++ newLine depth ++ "]"
  | .obj [] => "\x7b\x7d"
  | .obj members => "\x7b" ++ prettyMembers (depth + 1) members ++ newLine depth ++ "\x7d"
  | .null => "null"
  | .bool b => if b then "true" else "false"
  | .num n => n.render
  | .str s => quote s

/-- The texts of items, each on a new line. -/
def prettyItems (depth : Nat) : List Json → String
  | [] => ""
  | [v] => newLine depth ++ v.prettyAt depth
  | v :: w :: rest => newLine depth ++ v.prettyAt depth ++ "," ++ prettyItems depth (w :: rest)

/-- The texts of members, each on a new line. -/
def prettyMembers (depth : Nat) : List (String × Json) → String
  | [] => ""
  | [(k, v)] => newLine depth ++ quote k ++ ": " ++ v.prettyAt depth
  | (k, v) :: m :: rest =>
    newLine depth ++ quote k ++ ": " ++ v.prettyAt depth ++ "," ++ prettyMembers depth (m :: rest)

end

/-- The text of a value on many lines. -/
def pretty (value : Json) : String := value.prettyAt 0

end Json

end ShapeGraph
