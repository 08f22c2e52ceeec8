import ShapeGraph.Json.Basic

/-!
# Reading JSON texts

## Main definitions

* `Json.parse?` — the value that a text stands for.
* `Json.nestingLimit` — how deep arrays and objects in a file may be nested.

## Implementation notes

The grammar is the strict one: no comments, no leading zeros, no bare control characters in strings,
and an escaped surrogate only as half of a pair.  A name that occurs twice in an object keeps its
first place and takes its last value.

Every step hands on the characters that are left.  The recursion is bounded by the length of the
text, of which each level and each item uses up at least one character, so the bound is never what
ends it.
-/

set_option autoImplicit false

namespace ShapeGraph

namespace Json

/-! ## Tokens -/

/-- Without the blanks at its beginning. -/
def skipBlanks : List Char → List Char :=
  List.dropWhile fun c => c == ' ' || c == '\t' || c == '\n' || c == '\r'

/-- The decimal digits at the beginning, as numbers, and the rest. -/
def takeDigits (cs : List Char) : List Nat × List Char :=
  ((cs.takeWhile Char.isDigit).map fun c => c.toNat - 48, cs.dropWhile Char.isDigit)

/-- The value of a hexadecimal digit. -/
def hexValue? (c : Char) : Option Nat :=
  if c.isDigit then some (c.toNat - 48)
  else if 'a' ≤ c ∧ c ≤ 'f' then some (c.toNat - 87)
  else if 'A' ≤ c ∧ c ≤ 'F' then some (c.toNat - 55)
  else none

/-- The number written by four hexadecimal digits. -/
def hexQuad? (a b c d : Char) : Option Nat := do
  return ((← hexValue? a) * 16 + (← hexValue? b)) * 256 + ((← hexValue? c) * 16 + (← hexValue? d))

/-- The character that an escape of one letter stands for. -/
def simpleEscape? (c : Char) : Option Char :=
  if c = '"' ∨ c = '\\' ∨ c = '/' then some c
  else if c = 'b' then some (Char.ofNat 8)
  else if c = 'f' then some (Char.ofNat 12)
  else if c = 'n' then some '\n'
  else if c = 'r' then some '\r'
  else if c = 't' then some '\t'
  else none

/-- Whether a code unit is the first half of a pair. -/
def isHighSurrogate (n : Nat) : Bool := 0xD800 ≤ n && n ≤ 0xDBFF

/-- Whether a code unit is the second half of a pair. -/
def isLowSurrogate (n : Nat) : Bool := 0xDC00 ≤ n && n ≤ 0xDFFF

/-- The rest of a string after its opening quote: its characters, and what follows the closing
quote. -/
def stringRest : List Char → Option (List Char × List Char)
  | [] => none
  | '"' :: rest => some ([], rest)
  | '\\' :: 'u' :: a :: b :: c :: d :: '\\' :: 'u' :: e :: f :: g :: h :: rest => do
    let high ← hexQuad? a b c d
    if isHighSurrogate high then
      let low ← hexQuad? e f g h
      if isLowSurrogate low then
        let (cs, rest) ← stringRest rest
        return (Char.ofNat (0x10000 + (high - 0xD800) * 0x400 + (low - 0xDC00)) :: cs, rest)
      else none
    else if isLowSurrogate high then none
    else
      let (cs, rest) ← stringRest ('\\' :: 'u' :: e :: f :: g :: h :: rest)
      return (Char.ofNat high :: cs, rest)
  | '\\' :: 'u' :: a :: b :: c :: d :: rest => do
    let n ← hexQuad? a b c d
    if isHighSurrogate n || isLowSurrogate n then none
    else
      let (cs, rest) ← stringRest rest
      return (Char.ofNat n :: cs, rest)
  | '\\' :: c :: rest => do
    let e ← simpleEscape? c
    let (cs, rest) ← stringRest rest
    return (e :: cs, rest)
  | c :: rest =>
    if c.toNat < 32 ∨ c = '\\' then none
    else do
      let (cs, rest) ← stringRest rest
      return (c :: cs, rest)

/-- The exponent of a number, if one follows; `none` if its digits are missing. -/
def takeExponent (cs : List Char) : Option (Option (Bool × List Nat) × List Char) :=
  match cs with
  | e :: rest =>
    if e = 'e' ∨ e = 'E' then
      let (negative, rest) := match rest with
        | '+' :: r => (false, r)
        | '-' :: r => (true, r)
        | r => (false, r)
      let (digits, rest) := takeDigits rest
      if digits.isEmpty then none else some (some (negative, digits), rest)
    else some (none, cs)
  | [] => some (none, [])

/-- The fraction of a number, if one follows; `none` if its digits are missing. -/
def takeFraction (cs : List Char) : Option (Option (List Nat) × List Char) :=
  match cs with
  | '.' :: rest =>
    let (digits, rest) := takeDigits rest
    if digits.isEmpty then none else some (some digits, rest)
  | _ => some (none, cs)

/-- The number at the beginning, and the rest. -/
def takeNumber (cs : List Char) : Option (Number × List Char) := do
  let (negative, cs) := match cs with
    | '-' :: r => (true, r)
    | r => (false, r)
  let (whole, cs) := takeDigits cs
  if whole.isEmpty || (whole.length > 1 && whole.head? == some 0) then none
  else
    let (fraction, cs) ← takeFraction cs
    let (exponent, cs) ← takeExponent cs
    let n ← Literal.value ⟨negative, whole, fraction, exponent⟩
    return (n, cs)

/-! ## Values -/

mutual

/-- The value at the beginning, in which arrays and objects are nested at most `depth` deep, and the
rest. -/
def takeValue : Nat → Nat → List Char → Option (Json × List Char)
  | 0, _, _ => none
  | fuel + 1, depth, cs =>
    match skipBlanks cs with
    | 'n' :: 'u' :: 'l' :: 'l' :: rest => some (.null, rest)
    | 't' :: 'r' :: 'u' :: 'e' :: rest => some (.bool true, rest)
    | 'f' :: 'a' :: 'l' :: 's' :: 'e' :: rest => some (.bool false, rest)
    | '"' :: rest => (stringRest rest).map fun (s, rest) => (.str (String.ofList s), rest)
    | '[' :: rest =>
      if depth = 0 then none
      else match skipBlanks rest with
        | ']' :: rest => some (.arr [], rest)
        | rest => (takeItems fuel (depth - 1) rest).map fun (items, rest) => (.arr items, rest)
    | '\x7b' :: rest =>
      if depth = 0 then none
      else match skipBlanks rest with
        | '\x7d' :: rest => some (.obj [], rest)
        | rest =>
          (takeMembers fuel (depth - 1) [] rest).map fun (members, rest) => (.obj members, rest)
    | cs => (takeNumber cs).map fun (n, rest) => (.num n, rest)

/-- The items of an array up to its closing bracket. -/
def takeItems : Nat → Nat → List Char → Option (List Json × List Char)
  | 0, _, _ => none
  | fuel + 1, depth, cs => do
    let (v, cs) ← takeValue fuel depth cs
    match skipBlanks cs with
    | ',' :: rest =>
      let (items, rest) ← takeItems fuel depth rest
      return (v :: items, rest)
    | ']' :: rest => return ([v], rest)
    | _ => none

/-- The members of an object up to its closing brace, added to those before them. -/
def takeMembers : Nat → Nat → List (String × Json) → List Char →
    Option (List (String × Json) × List Char)
  | 0, _, _, _ => none
  | fuel + 1, depth, before, cs => do
    match skipBlanks cs with
    | '"' :: rest =>
      let (key, rest) ← stringRest rest
      match skipBlanks rest with
      | ':' :: rest =>
        let (v, rest) ← takeValue fuel depth rest
        let members := setMember (String.ofList key) v before
        match skipBlanks rest with
        | ',' :: rest => takeMembers fuel depth members rest
        | '\x7d' :: rest => return (members, rest)
        | _ => none
      | _ => none
    | _ => none

end

/-- How deep arrays and objects in a file may be nested. -/
def nestingLimit : Nat := 127

/-- The value that a text stands for, if it is the text of a value with at most `depth` nested
arrays and objects. -/
def parse? (depth : Nat) (text : String) : Option Json :=
  match takeValue (2 * text.length + 2) depth text.toList with
  | some (v, rest) => if (skipBlanks rest).isEmpty then some v else none
  | none => none

end Json

end ShapeGraph
