/-!
# English singulars

Items of an array and values of a map are one piece of their container each, so a name for them is
the singular of the container's name.

## Main definitions

* `singular` — the singular of a word, by the first rule that applies: a doubled plural
  (`statuses`), a word without plural (`metadata`), an irregular plural (`children`), a regular
  ending (`boxes`, `cities`, `pets`).

## Implementation notes

Rules look at the ends of words and compare ASCII letters without regard to case; what they keep of
a word they keep as it was written.  A rule that tests a letter for upper case only ever meets an
ASCII letter there, because it has just been matched against one.
-/

set_option autoImplicit false

namespace ShapeGraph

/-! ## Tables -/

/-- Plurals that no ending explains, each with its singular. -/
def irregularPlurals : List (List Char × List Char) :=
  [("people".toList, "person".toList), ("children".toList, "child".toList),
   ("men".toList, "man".toList), ("women".toList, "woman".toList),
   ("mice".toList, "mouse".toList), ("geese".toList, "goose".toList),
   ("feet".toList, "foot".toList), ("teeth".toList, "tooth".toList),
   ("indices".toList, "index".toList), ("matrices".toList, "matrix".toList),
   ("vertices".toList, "vertex".toList), ("criteria".toList, "criterion".toList),
   ("analyses".toList, "analysis".toList), ("data".toList, "datum".toList)]

/-- Words that are their own singular. -/
def unchangedWords : List (List Char) :=
  ["metadata".toList, "information".toList, "equipment".toList, "series".toList,
   "species".toList, "news".toList, "status".toList, "alias".toList, "analysis".toList,
   "canvas".toList, "bus".toList, "address".toList]

/-- Endings after which `es`, and not `s` alone, marks the plural. -/
def sibilantPlurals : List (List Char) :=
  ["sses".toList, "shes".toList, "ches".toList, "xes".toList, "zes".toList, "oes".toList]

/-! ## Endings -/

/-- Whether `word` ends in `ending`, which is given in lower case, whatever its own case. -/
def endsIn (word ending : List Char) : Bool := ending.isSuffixOf (word.map Char.toLower)

/-- Replace the last `n` letters. -/
def replaceLast (word : List Char) (n : Nat) (ending : List Char) : List Char :=
  word.take (word.length - n) ++ ending

/-- Whether a new segment of an identifier starts at position `i`: at its beginning, at a capital,
or after an underscore or a hyphen. -/
def startsSegment (word : List Char) (i : Nat) : Bool :=
  i == 0 || (word[i]?.any Char.isUpper) || ((word.take i).getLast?.any fun c => c == '_' || c == '-')

/-- Whether `word` is the plural in `es` of one of the unchanged words that end in `s`, standing
alone or as the last segment of an identifier. -/
def isDoubledPlural (word : List Char) : Bool :=
  unchangedWords.any fun u =>
    endsIn u ['s'] && endsIn word (u ++ ['e', 's'])
      && startsSegment word (word.length - 2 - u.length)

/-! ## The rules -/

/-- Put the singular in place of an irregular plural, with a capital where the plural had one. -/
def replacePlural (word plural single : List Char) : List Char :=
  let capital := word[word.length - plural.length]?.any Char.isUpper
  replaceLast word plural.length
    (match single with
     | c :: rest => (if capital then c.toUpper else c) :: rest
     | [] => [])

/-- The singular by regular endings. -/
def regularSingular (word : List Char) : List Char :=
  if endsIn word "ies".toList && 3 < word.length then replaceLast word 3 ['y']
  else if endsIn word "ves".toList && 3 < word.length then replaceLast word 3 ['f']
  else if sibilantPlurals.any (endsIn word) then replaceLast word 2 []
  else if endsIn word ['s'] && !endsIn word ['s', 's'] && !endsIn word ['u', 's']
      && !endsIn word ['i', 's'] then replaceLast word 1 []
  else word

/-- The singular of a word given as its letters. -/
def singularLetters (word : List Char) : List Char :=
  if isDoubledPlural word then replaceLast word 2 []
  else if word.length < 2 || unchangedWords.any (endsIn word) then word
  else match irregularPlurals.find? fun p => endsIn word p.1 with
    | some (plural, single) => replacePlural word plural single
    | none => regularSingular word

/-- The singular of an English word. -/
def singular (word : String) : String := String.ofList (singularLetters word.toList)

end ShapeGraph
