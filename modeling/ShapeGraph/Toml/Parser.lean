import ShapeGraph.Toml.Scalars
import ShapeGraph.Toml.Strings
import ShapeGraph.Toml.Table

/-!
# Reading settings files

## Main definitions

* `Toml.takePath` — a dotted key.
* `Toml.takeValue` — a value.
* `Toml.takeStatements` — the statements of a file.
* `Toml.parse?` — the settings that a text stands for.

## Implementation notes

The recursion is bounded by the length of the text, of which each statement and each value uses up at
least one character.  Arrays and inline tables may be nested in each other up to a limit, and the length
of dotted keys has the same limit.
-/

set_option autoImplicit false

namespace ShapeGraph

namespace Toml

/-! ## Blanks and comments -/

/-- Without the blanks at the beginning. -/
def skipBlanks : List Char → List Char := List.dropWhile fun c => c == ' ' || c == '\t'

/-- What stands after a comment, of which the `#` has been read; none if it has a control
character. -/
def skipComment : List Char → Option (List Char)
  | [] => some []
  | '\n' :: rest => some ('\n' :: rest)
  | '\r' :: '\n' :: rest => some ('\n' :: rest)
  | c :: rest => if isControl c then none else skipComment rest

/-- Without blanks, a comment and the end of the line, of which nothing else may be left. -/
def endLine (cs : List Char) : Option (List Char) := do
  let cs ← match skipBlanks cs with
    | '#' :: rest => skipComment rest
    | rest => some rest
  match cs with
  | [] => some []
  | '\n' :: rest => some rest
  | '\r' :: '\n' :: rest => some rest
  | _ => none

/-- Without the blanks, line breaks and comments at the beginning. -/
def skipAll : Nat → List Char → Option (List Char)
  | 0, _ => none
  | fuel + 1, cs =>
    match skipBlanks cs with
    | '\n' :: rest => skipAll fuel rest
    | '\r' :: '\n' :: rest => skipAll fuel rest
    | '#' :: rest => do skipAll fuel (← skipComment rest)
    | rest => some rest

/-! ## Keys -/

/-- Whether a character can stand in a key without quotes. -/
def isBareKeyChar (c : Char) : Bool := c.isAlphanum || c = '_' || c = '-'

/-- A key without dots: a word, or a string on one line. -/
def takeSimpleKey (cs : List Char) : Option (String × List Char) :=
  match cs with
  | '"' :: rest => (takeBasic rest).map fun (text, rest) => (String.ofList text, rest)
  | '\'' :: rest => (takeLiteral rest).map fun (text, rest) => (String.ofList text, rest)
  | cs =>
    let word := cs.takeWhile isBareKeyChar
    if word.isEmpty then none else some (String.ofList word, cs.dropWhile isBareKeyChar)

/-- The names of a dotted key, and what follows it and the blanks after it. -/
def takeKey : Nat → List Char → Option (List String × List Char)
  | 0, _ => none
  | fuel + 1, cs => do
    let (key, rest) ← takeSimpleKey (skipBlanks cs)
    match skipBlanks rest with
    | '.' :: rest =>
      let (keys, rest) ← takeKey fuel rest
      return (key :: keys, rest)
    | rest => return ([key], rest)

/-- How deep values may be nested, and how many names a dotted key may have. -/
def depthLimit : Nat := 79

/-- A dotted key, and what follows it and the blanks after it. -/
def takePath (cs : List Char) : Option (List String × List Char) :=
  (takeKey (cs.length + 1) cs).filter fun taken => taken.1.length ≤ depthLimit

/-! ## Values -/

/-- The entries of an inline table as settings. -/
def inlineTable (entries : List (List String × Setting)) : Option Setting :=
  (entries.foldlM (fun table e => putDotted (.value e.2) e.1 table) []).map fun table =>
    .table (settingsOf table)

mutual

/-- The value at the beginning, nested at most `depth` deep, and what follows. -/
def takeValue : Nat → Nat → List Char → Option (Setting × List Char)
  | 0, _, _ => none
  | fuel + 1, depth, cs =>
    match cs with
    | '[' :: rest =>
      if depth = 0 then none
      else (takeItems fuel (depth - 1) rest).map fun (items, rest) => (.list items, rest)
    | '\x7b' :: rest =>
      if depth = 0 then none
      else
        match skipBlanks rest with
        | '\x7d' :: rest => some (.table [], rest)
        | rest => do
          let (entries, rest) ← takeEntries fuel (depth - 1) rest
          return (← inlineTable entries, rest)
    | '"' :: _ => (takeString cs).map fun (text, rest) => (.text (String.ofList text), rest)
    | '\'' :: _ => (takeString cs).map fun (text, rest) => (.text (String.ofList text), rest)
    | cs => takeScalar cs

/-- The items of an array up to its closing bracket; a comma may stand after the last one. -/
def takeItems : Nat → Nat → List Char → Option (List Setting × List Char)
  | 0, _, _ => none
  | fuel + 1, depth, cs => do
    match ← skipAll (cs.length + 1) cs with
    | ']' :: rest => return ([], rest)
    | cs =>
      let (item, rest) ← takeValue fuel depth cs
      match ← skipAll (rest.length + 1) rest with
      | ',' :: rest =>
        let (items, rest) ← takeItems fuel depth rest
        return (item :: items, rest)
      | ']' :: rest => return ([item], rest)
      | _ => none

/-- The entries of an inline table up to its closing brace. -/
def takeEntries : Nat → Nat → List Char → Option (List (List String × Setting) × List Char)
  | 0, _, _ => none
  | fuel + 1, depth, cs => do
    let (path, rest) ← takePath cs
    match rest with
    | '=' :: rest =>
      let (value, rest) ← takeValue fuel depth (skipBlanks rest)
      match skipBlanks rest with
      | ',' :: rest =>
        let (entries, rest) ← takeEntries fuel depth rest
        return ((path, value) :: entries, rest)
      | '\x7d' :: rest => return ([(path, value)], rest)
      | _ => none
    | _ => none

end

/-! ## Statements -/

/-- The statement at the beginning, and what follows its line. -/
def takeStatement (cs : List Char) : Option (Statement × List Char) :=
  match cs with
  | '[' :: '[' :: rest => do
    let (path, rest) ← takePath rest
    match rest with
    | ']' :: ']' :: rest => return (.itemHeader path, ← endLine rest)
    | _ => none
  | '[' :: rest => do
    let (path, rest) ← takePath rest
    match rest with
    | ']' :: rest => return (.header path, ← endLine rest)
    | _ => none
  | cs => do
    let (path, rest) ← takePath cs
    match rest with
    | '=' :: rest =>
      let (value, rest) ← takeValue (rest.length + 1) depthLimit (skipBlanks rest)
      return (.entry path value, ← endLine rest)
    | _ => none

/-- The statements of a text. -/
def takeStatements : Nat → List Char → Option (List Statement)
  | 0, _ => none
  | fuel + 1, cs => do
    match ← skipAll (cs.length + 1) cs with
    | [] => return []
    | cs =>
      let (statement, rest) ← takeStatement cs
      return statement :: (← takeStatements fuel rest)

/-- The settings that a text stands for, if it is the text of a settings file. -/
def parse? (text : String) : Option (List (String × Setting)) :=
  (takeStatements (text.length + 1) text.toList).bind collect

end Toml

end ShapeGraph
