import ShapeGraph.Json.Parser

/-!
# Strings of settings files

A text is written between quotes or apostrophes, one or three on each side.  Between quotes a
backslash begins an escape; between apostrophes every character stands for itself.  Only the forms
with three of them may run over several lines.

## Main definitions

* `Toml.takeString` — the text of the string at the beginning of some characters.
* `Toml.StringForm` — the ways to write a text.
* `Toml.formOf` — the way that a text is written.
* `Toml.writeString` — the written text.

## Implementation notes

A line break directly after three opening quotes or apostrophes does not belong to the text.  Before
three closing ones, up to two more of them do.  A backslash at the end of a line skips all blanks and
line breaks up to the next other character.
-/

set_option autoImplicit false

namespace ShapeGraph

namespace Toml

/-- Control characters other than the tabulator must not stand in a string. -/
def isControl (c : Char) : Bool := (c.toNat < 32 && c ≠ '\t') || c.toNat = 127

/-! ## Reading -/

/-- The character that an escape of one letter stands for. -/
def escaped? (c : Char) : Option Char :=
  if c = '"' ∨ c = '\\' then some c
  else if c = 'b' then some (Char.ofNat 8)
  else if c = 't' then some '\t'
  else if c = 'n' then some '\n'
  else if c = 'f' then some (Char.ofNat 12)
  else if c = 'r' then some '\r'
  else none

/-- The character whose number is written by hexadecimal digits, unless the number is half of a pair
or too large. -/
def coded? (digits : List Char) : Option Char := do
  let n ← digits.foldlM (fun n c => (Json.hexValue? c).map (16 * n + ·)) 0
  if n.isValidChar then some (Char.ofNat n) else none

/-- Put a character in front of what has been read. -/
def prepend (c : Char) (read : Option (List Char × List Char)) : Option (List Char × List Char) :=
  read.map fun (text, rest) => (c :: text, rest)

/-- Put a character, if there is one, in front of what has been read. -/
def prepend? (c : Option Char) (read : Option (List Char × List Char)) :
    Option (List Char × List Char) :=
  c.bind fun c => prepend c read

/-- The text up to the closing quote, and what follows. -/
def takeBasic : List Char → Option (List Char × List Char)
  | [] => none
  | '"' :: rest => some ([], rest)
  | '\\' :: 'u' :: a :: b :: c :: d :: rest => prepend? (coded? [a, b, c, d]) (takeBasic rest)
  | '\\' :: 'U' :: a :: b :: c :: d :: e :: f :: g :: h :: rest =>
    prepend? (coded? [a, b, c, d, e, f, g, h]) (takeBasic rest)
  | '\\' :: c :: rest => prepend? (escaped? c) (takeBasic rest)
  | c :: rest => if isControl c || c = '\\' then none else prepend c (takeBasic rest)

/-- The text up to the closing apostrophe, and what follows. -/
def takeLiteral : List Char → Option (List Char × List Char)
  | [] => none
  | '\'' :: rest => some ([], rest)
  | c :: rest => if isControl c then none else prepend c (takeLiteral rest)

/-- Up to two more quotes after three of them. -/
def surplus (quote : Char) : List Char → List Char × List Char
  | a :: b :: rest =>
    if a = quote then if b = quote then ([a, b], rest) else ([a], b :: rest) else ([], a :: b :: rest)
  | [a] => if a = quote then ([a], []) else ([], [a])
  | [] => ([], [])

/-- Whether only blanks stand before the end of the line. -/
def endsLine (cs : List Char) : Bool :=
  match cs.dropWhile fun c => c == ' ' || c == '\t' with
  | '\n' :: _ => true
  | '\r' :: '\n' :: _ => true
  | _ => false

/-- The text up to three closing quotes, and what follows.  While `skipping`, blanks and line breaks
are passed over. -/
def takeLongBasic : Bool → List Char → Option (List Char × List Char)
  | _, [] => none
  | true, ' ' :: rest => takeLongBasic true rest
  | true, '\t' :: rest => takeLongBasic true rest
  | true, '\r' :: '\n' :: rest => takeLongBasic true rest
  | true, '\n' :: rest => takeLongBasic true rest
  | _, '"' :: '"' :: '"' :: rest => some (surplus '"' rest)
  | _, '\r' :: '\n' :: rest => prepend '\n' (takeLongBasic false rest)
  | _, '\n' :: rest => prepend '\n' (takeLongBasic false rest)
  | _, '\\' :: 'u' :: a :: b :: c :: d :: rest =>
    prepend? (coded? [a, b, c, d]) (takeLongBasic false rest)
  | _, '\\' :: 'U' :: a :: b :: c :: d :: e :: f :: g :: h :: rest =>
    prepend? (coded? [a, b, c, d, e, f, g, h]) (takeLongBasic false rest)
  | _, '\\' :: c :: rest =>
    if endsLine (c :: rest) then takeLongBasic true rest
    else prepend? (escaped? c) (takeLongBasic false rest)
  | _, c :: rest =>
    if isControl c || c = '\\' then none else prepend c (takeLongBasic false rest)

/-- The text up to three closing apostrophes, and what follows. -/
def takeLongLiteral : List Char → Option (List Char × List Char)
  | [] => none
  | '\'' :: '\'' :: '\'' :: rest => some (surplus '\'' rest)
  | '\r' :: '\n' :: rest => prepend '\n' (takeLongLiteral rest)
  | '\n' :: rest => prepend '\n' (takeLongLiteral rest)
  | c :: rest => if isControl c then none else prepend c (takeLongLiteral rest)

/-- Without a line break at the beginning. -/
def skipBreak : List Char → List Char
  | '\r' :: '\n' :: rest => rest
  | '\n' :: rest => rest
  | cs => cs

/-- The text of the string at the beginning, and what follows. -/
def takeString : List Char → Option (List Char × List Char)
  | '"' :: '"' :: '"' :: rest => takeLongBasic false (skipBreak rest)
  | '"' :: rest => takeBasic rest
  | '\'' :: '\'' :: '\'' :: rest => takeLongLiteral (skipBreak rest)
  | '\'' :: rest => takeLiteral rest
  | _ => none

/-! ## Writing -/

/-- The ways to write a text. -/
inductive StringForm where
  /-- Between quotes. -/
  | basic
  /-- Between apostrophes. -/
  | literal
  /-- Between three quotes. -/
  | longBasic
  /-- Between three apostrophes. -/
  | longLiteral
deriving DecidableEq, Inhabited

/-- Whether so many of a character stand side by side somewhere in a text. -/
def hasRun (quote : Char) (count : Nat) : List Char → Bool
  | [] => count = 0
  | c :: rest => (List.replicate count quote).isPrefixOf (c :: rest) || hasRun quote count rest

/-- Whether a text has a control character that only an escape can stand for. -/
def needsEscape (text : List Char) : Bool := text.any fun c => isControl c && c ≠ '\n'

/-- The way that a text is written: the first one that needs no escape, or else between quotes, so that
lines stay lines. -/
def formOf (text : List Char) : StringForm :=
  let lines := text.contains '\n'
  let backslash := text.contains '\\'
  let escaped := if lines then .longBasic else .basic
  if needsEscape text then escaped
  else if !backslash && !hasRun '"' 1 text && !lines then .basic
  else if !hasRun '\'' 1 text && !lines then .literal
  else if !backslash && !hasRun '"' 3 text then .longBasic
  else if !hasRun '\'' 3 text then .longLiteral
  else escaped

/-- The upper case digit of a number below sixteen. -/
def hexDigit (n : Nat) : Char := (Nat.digitChar (n % 16)).toUpper

/-- A control character as an escape of four digits. -/
def codeEscape (c : Char) : List Char :=
  ['\\', 'u', '0', '0', hexDigit (c.toNat / 16), hexDigit c.toNat]

/-- How a character stands between quotes. -/
def writeChar (c : Char) : List Char :=
  if c = '"' then ['\\', '"']
  else if c = '\\' then ['\\', '\\']
  else if c.toNat = 8 then ['\\', 'b']
  else if c = '\t' then ['\\', 't']
  else if c = '\n' then ['\\', 'n']
  else if c.toNat = 12 then ['\\', 'f']
  else if c = '\r' then ['\\', 'r']
  else if isControl c then codeEscape c
  else [c]

/-- How a text stands between three quotes, after so many quotes of its own that stand side by side:
line breaks stay, and so do up to two quotes side by side. -/
def writeLong : Nat → List Char → List Char
  | _, [] => []
  | quotes, c :: rest =>
    if c = '"' then
      if quotes < 2 then c :: writeLong (quotes + 1) rest else writeChar c ++ writeLong 0 rest
    else if c = '\n' then c :: writeLong 0 rest
    else writeChar c ++ writeLong 0 rest

/-- A text between three quotes or apostrophes starts on a new line if it has several. -/
def lead (text : List Char) : List Char := if text.contains '\n' then ['\n'] else []

/-- A text in some form. -/
def writeAs (form : StringForm) (text : List Char) : List Char :=
  match form with
  | .basic => '"' :: text.flatMap writeChar ++ ['"']
  | .literal => '\'' :: text ++ ['\'']
  | .longBasic => ['"', '"', '"'] ++ lead text ++ writeLong 0 text ++ ['"', '"', '"']
  | .longLiteral => ['\'', '\'', '\''] ++ lead text ++ text ++ ['\'', '\'', '\'']

/-- The written text. -/
def writeString (text : String) : String :=
  String.ofList (writeAs (formOf text.toList) text.toList)

end Toml

end ShapeGraph
