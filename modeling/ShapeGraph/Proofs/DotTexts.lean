import ShapeGraph.Proofs.Requests
import ShapeGraph.Graph.Dot

/-!
# Reading drawings

The DOT language, as far as drawings need it: a graph is a list of statements, which set something, name a
node, or name the two ends of an arrow.  Names and values are words, or texts between quotes.

## Main definitions

* `Dot.Token`, `Dot.tokens` — the pieces that a text consists of.
* `Dot.Statement`, `Dot.read` — the statements of a graph.
* `Dot.isClosed` — a text may stand between quotes as it is.
* `Dot.Draws` — a part of a text is read as some statements.

## Main results

* `Dot.reads_quoted` — a closed text ends where its quote does.
* `Dot.closed_of_mem_tokens` — what is read between quotes is closed.
* `Dot.Draws.join` — lines that are read on their own are read one after the other.
* `Dot.closed_of_read` — all that statements consist of is closed.

## Design

A backslash and the character behind it belong together, and both stay in the text: it is only where a text
ends that they make a difference.  The reader of tokens is a machine that steps from one character to the
next, so that parts of a text can be read one after the other.
-/

set_option autoImplicit false

namespace ShapeGraph

namespace Dot

/-! ## Tokens -/

/-- A piece of a text in the DOT language. -/
inductive Token where
  /-- A word of letters and digits. -/
  | word (letters : String)
  /-- What stands between quotes, as it is written. -/
  | text (content : String)
  /-- An arrow. -/
  | arrow
  /-- A bracket or another mark. -/
  | mark (c : Char)
deriving DecidableEq

/-- What the reader of tokens is in. -/
inductive Mode where
  /-- Between two tokens. -/
  | between
  /-- In a word that has begun with some letters. -/
  | word (letters : List Char)
  /-- Between quotes. -/
  | text (content : List Char)
  /-- Between quotes, behind a backslash. -/
  | escape (content : List Char)
  /-- In an arrow, behind its hyphen. -/
  | dash
deriving DecidableEq

/-- Whether a character separates tokens. -/
def isBlank (c : Char) : Bool := c = ' ' || c = '\n' || c = '\t' || c = '\r'

/-- Whether a character is a token of its own. -/
def isMark (c : Char) : Bool := ['\x7b', '\x7d', '[', ']', ';', ',', '='].contains c

/-- Whether a character can stand in a word. -/
def isWordChar (c : Char) : Bool := c.isAlphanum || c = '_' || c = '.'

/-- The tokens that a character completes between tokens, and what it leads to. -/
def start (c : Char) : Option (List Token × Mode) :=
  if c = '"' then some ([], .text [])
  else if c = '-' then some ([], .dash)
  else if isBlank c then some ([], .between)
  else if isMark c then some ([.mark c], .between)
  else if isWordChar c then some ([], .word [c])
  else none

/-- The tokens that a character completes, and what it leads to. -/
def step : Mode → Char → Option (List Token × Mode)
  | .between, c => start c
  | .word letters, c =>
    if isWordChar c then some ([], .word (letters ++ [c]))
    else (start c).map fun (ts, m) => (.word (String.ofList letters) :: ts, m)
  | .text content, c =>
    if c = '"' then some ([.text (String.ofList content)], .between)
    else if c = '\\' then some ([], .escape content)
    else some ([], .text (content ++ [c]))
  | .escape content, c => some ([], .text (content ++ ['\\', c]))
  | .dash, c => if c = '>' then some ([.arrow], .between) else none

/-- The tokens that some characters complete, and what they lead to. -/
def run : Mode → List Char → Option (List Token × Mode)
  | m, [] => some ([], m)
  | m, c :: cs => do
    let (ts, m) ← step m c
    let (us, m) ← run m cs
    return (ts ++ us, m)

/-- The tokens of a text that does not end in the middle of one. -/
def tokens (text : String) : Option (List Token) :=
  match run .between (text.toList ++ ['\n']) with
  | some (ts, .between) => some ts
  | _ => none

/-! ## Statements -/

/-- A statement about a graph.  Attributes are keys with values. -/
inductive Statement where
  /-- A property of the graph. -/
  | setting (key value : String)
  /-- Attributes for all nodes, all arrows, or the graph. -/
  | defaults (kind : String) (attributes : List (String × String))
  /-- A node. -/
  | node (name : String) (attributes : List (String × String))
  /-- An arrow. -/
  | edge (source target : String) (attributes : List (String × String))
deriving DecidableEq

/-- The name or value that a token stands for. -/
def id? : Token → Option String
  | .word s | .text s => some s
  | _ => none

/-- Attributes up to their closing bracket, and what follows. -/
def takeAttributes : List Token → Option (List (String × String) × List Token)
  | .mark ']' :: rest => some ([], rest)
  | key :: .mark '=' :: value :: .mark ',' :: rest => do
    let (attributes, after) ← takeAttributes rest
    return ((← id? key, ← id? value) :: attributes, after)
  | key :: .mark '=' :: value :: rest => do
    let (attributes, after) ← takeAttributes rest
    return ((← id? key, ← id? value) :: attributes, after)
  | _ => none

/-- Attributes in brackets, none if there is no bracket, and what follows. -/
def takeBracket : List Token → Option (List (String × String) × List Token)
  | .mark '[' :: rest => takeAttributes rest
  | rest => some ([], rest)

/-- The words that stand for all nodes, all arrows, and the graph. -/
def kinds : List Token := [.word "node", .word "edge", .word "graph"]

/-- The statement at the beginning, and what follows. -/
def takeStatement : List Token → Option (Statement × List Token)
  | source :: .arrow :: target :: rest => do
    let (attributes, after) ← takeBracket rest
    return (.edge (← id? source) (← id? target) attributes, after)
  | key :: .mark '=' :: value :: rest => do
    return (.setting (← id? key) (← id? value), rest)
  | name :: rest => do
    let (attributes, after) ← takeBracket rest
    let text ← id? name
    return (if kinds.contains name then .defaults text attributes else .node text attributes, after)
  | [] => none

/-- What follows the semicolon behind a statement; it may be left out. -/
def skipSemicolon : List Token → List Token
  | .mark ';' :: rest => rest
  | rest => rest

/-- At most so many statements, up to the closing brace at the end. -/
def takeStatements (fuel : Nat) (ts : List Token) : Option (List Statement) :=
  if ts = [.mark '\x7d'] then some []
  else match fuel with
    | 0 => none
    | fuel + 1 => do
      let (statement, rest) ← takeStatement ts
      return statement :: (← takeStatements fuel (skipSemicolon rest))

/-- The statements of the graph that a text describes. -/
def read (text : String) : Option (List Statement) := do
  match ← tokens text with
  | .word "digraph" :: name :: .mark '\x7b' :: rest =>
    let _ ← id? name
    takeStatements rest.length rest
  | _ => none

/-- Keys, names and values with and without quotes, and a label with a quote in it. -/
example : read "digraph G \x7b rankdir=LR; a -> \"b\" [label=\"say \\\"c\\\"\"]; \"b\" \x7d" =
    some [.setting "rankdir" "LR", .edge "a" "b" [("label", "say \\\"c\\\"")], .node "b" []] := by
  decide +kernel

/-! ## Reading on -/

theorem run_append (m : Mode) (cs ds : List Char) : run m (cs ++ ds) =
    (run m cs).bind fun r => (run r.2 ds).map fun r' => (r.1 ++ r'.1, r'.2) := by
  induction cs generalizing m with
  | nil => cases hds : run m ds <;> simp [run, hds]
  | cons c cs ih =>
    rw [List.cons_append, run, run]
    cases step m c with
    | none => rfl
    | some r =>
      simp only [Option.bind_eq_bind, Option.bind_some, ih]
      cases run r.2 cs with
      | none => rfl
      | some r' => cases hds : run r'.2 ds <;> simp [hds]

/-- A part of a text consists of some tokens. -/
def Reads (part : String) (ts : List Token) : Prop := run .between part.toList = some (ts, .between)

instance (part : String) (ts : List Token) : Decidable (Reads part ts) :=
  inferInstanceAs (Decidable (run .between part.toList = some (ts, .between)))

theorem Reads.append {part other : String} {ts us : List Token} (h : Reads part ts)
    (h' : Reads other us) : Reads (part ++ other) (ts ++ us) := by
  unfold Reads at h h' ⊢
  rw [String.toList_append, run_append, h, Option.bind_some, h', Option.map_some]

theorem Reads.tokens_eq {text : String} {ts : List Token} (h : Reads text ts) : tokens text = some ts := by
  have hend : run .between ['\n'] = some ([], .between) := by decide
  unfold Reads at h
  unfold tokens
  rw [run_append, h, Option.bind_some, hend, Option.map_some, List.append_nil]

/-! ## Closed texts -/

/-- Whether none of the quotes in a text ends it, and its last escape is complete; a backslash may stand
before it. -/
def closesBehind : Bool → List Char → Bool
  | escaped, [] => !escaped
  | true, _ :: rest => closesBehind false rest
  | false, c :: rest => c ≠ '"' && closesBehind (c = '\\') rest

/-- Whether a text may stand between quotes as it is. -/
def isClosed (cs : List Char) : Bool := closesBehind false cs

theorem closesBehind_append {escaped : Bool} {cs ds : List Char} (hcs : closesBehind escaped cs = true)
    (hds : isClosed ds = true) : closesBehind escaped (cs ++ ds) = true := by
  induction cs generalizing escaped with
  | nil =>
    cases escaped with
    | true => cases hcs
    | false => exact hds
  | cons c cs ih =>
    cases escaped with
    | true => exact ih hcs
    | false =>
      rw [List.cons_append, closesBehind, Bool.and_eq_true]
      rw [closesBehind, Bool.and_eq_true] at hcs
      exact ⟨hcs.1, ih hcs.2⟩

/-- Between quotes, a closed text stays what it is. -/
theorem run_closed {escaped : Bool} {cs : List Char} (h : closesBehind escaped cs = true)
    (content : List Char) :
    run (if escaped then .escape content else .text content) cs =
      some ([], .text (content ++ if escaped then '\\' :: cs else cs)) := by
  induction cs generalizing escaped content with
  | nil =>
    cases escaped with
    | true => cases h
    | false => simp [run]
  | cons c cs ih =>
    cases escaped with
    | true =>
      have hrest : run (.text (content ++ ['\\', c])) cs = _ := ih h (content ++ ['\\', c])
      simp [run, step, hrest]
    | false =>
      rw [closesBehind, Bool.and_eq_true, decide_eq_true_iff] at h
      by_cases hbackslash : c = '\\'
      · rw [decide_eq_true hbackslash] at h
        have hrest : run (.escape content) cs = _ := ih h.2 content
        simp [run, step, hbackslash, hrest]
      · rw [decide_eq_false hbackslash] at h
        have hrest : run (.text (content ++ [c])) cs = _ := ih h.2 (content ++ [c])
        simp [run, step, h.1, hbackslash, hrest]

/-- A closed text ends where its quote does. -/
theorem reads_quoted {s : String} (h : isClosed s.toList = true) :
    Reads (TypeGraph.quoted s) [.text s] := by
  have hopen : run .between ['"'] = some ([], .text []) := by decide
  have hclose : run (.text s.toList) ['"'] = some ([.text s], .between) := by
    simp [run, step]
  have htext : (TypeGraph.quoted s).toList = ['"'] ++ (s.toList ++ ['"']) := by
    simp [TypeGraph.quoted]
  have hcontent := run_closed h []
  unfold Reads
  rw [htext, run_append, hopen, Option.bind_some, run_append]
  simp only [Bool.false_eq_true, if_false, List.nil_append] at hcontent
  rw [hcontent, Option.bind_some, hclose]
  rfl

/-! ## What is read is closed -/

theorem isClosed_of_plain {cs : List Char} (h : ∀ c ∈ cs, c ≠ '"' ∧ c ≠ '\\') : isClosed cs = true := by
  unfold isClosed
  induction cs with
  | nil => rfl
  | cons c cs ih =>
    rw [List.forall_mem_cons] at h
    rw [closesBehind, Bool.and_eq_true, decide_eq_true_iff, decide_eq_false h.1.2]
    exact ⟨h.1.1, ih h.2⟩

theorem plain_of_isWordChar {c : Char} (h : isWordChar c = true) : c ≠ '"' ∧ c ≠ '\\' := by
  constructor <;> rintro rfl <;> revert h <;> decide

/-- The name or value that a token stands for, if it does, is closed. -/
def Token.Closed (t : Token) : Prop := ∀ s, id? t = some s → isClosed s.toList = true

/-- What the reader has read of a token is closed. -/
def Mode.Closed : Mode → Prop
  | .word letters => ∀ c ∈ letters, isWordChar c = true
  | .text content | .escape content => isClosed content = true
  | .between | .dash => True

theorem Token.closed_word {letters : List Char} (h : ∀ c ∈ letters, isWordChar c = true) :
    (Token.word (String.ofList letters)).Closed := by
  rintro s ⟨⟩
  rw [String.toList_ofList]
  exact isClosed_of_plain fun c hc => plain_of_isWordChar (h c hc)

theorem closed_of_start {c : Char} {ts : List Token} {m : Mode} (h : start c = some (ts, m)) :
    (∀ t ∈ ts, t.Closed) ∧ m.Closed := by
  unfold start at h
  split_ifs at h with _ _ _ _ hword <;> cases h
  · exact ⟨fun t ht => absurd ht List.not_mem_nil, rfl⟩
  · exact ⟨fun t ht => absurd ht List.not_mem_nil, trivial⟩
  · exact ⟨fun t ht => absurd ht List.not_mem_nil, trivial⟩
  · exact ⟨List.forall_mem_singleton.2 (fun s hs => by cases hs), trivial⟩
  · exact ⟨fun t ht => absurd ht List.not_mem_nil, List.forall_mem_singleton.2 hword⟩

theorem closed_of_step {m n : Mode} {c : Char} {ts : List Token} (hm : m.Closed)
    (h : step m c = some (ts, n)) : (∀ t ∈ ts, t.Closed) ∧ n.Closed := by
  have hnil : ∀ t ∈ ([] : List Token), t.Closed := fun t ht => absurd ht List.not_mem_nil
  cases m with
  | between => exact closed_of_start h
  | word letters =>
    rw [step] at h
    split at h
    · next hc =>
      cases h
      refine ⟨hnil, fun d hd => ?_⟩
      rcases List.mem_append.1 hd with hd | hd
      · exact hm d hd
      · rw [List.mem_singleton.1 hd]
        exact hc
    · obtain ⟨⟨us, k⟩, hstart, heq⟩ := Option.map_eq_some_iff.1 h
      cases heq
      obtain ⟨hus, hn⟩ := closed_of_start hstart
      exact ⟨List.forall_mem_cons.2 ⟨Token.closed_word hm, hus⟩, hn⟩
  | text content =>
    rw [step] at h
    split_ifs at h with hquote hbackslash <;> cases h
    · refine ⟨List.forall_mem_singleton.2 ?_, trivial⟩
      rintro s ⟨⟩
      rw [String.toList_ofList]
      exact hm
    · exact ⟨hnil, hm⟩
    · exact ⟨hnil, closesBehind_append hm (by simp [isClosed, closesBehind, hquote, hbackslash])⟩
  | escape content =>
    cases h
    exact ⟨hnil, closesBehind_append hm (by simp [isClosed, closesBehind])⟩
  | dash =>
    rw [step] at h
    split at h <;> cases h
    exact ⟨List.forall_mem_singleton.2 (fun s hs => by cases hs), trivial⟩

theorem closed_of_run {m n : Mode} {cs : List Char} {ts : List Token} (hm : m.Closed)
    (h : run m cs = some (ts, n)) : (∀ t ∈ ts, t.Closed) ∧ n.Closed := by
  induction cs generalizing m ts with
  | nil =>
    cases h
    exact ⟨fun t ht => absurd ht List.not_mem_nil, hm⟩
  | cons c cs ih =>
    rw [run] at h
    obtain ⟨⟨us, k⟩, hstep, h⟩ := Option.bind_eq_some_iff.1 h
    obtain ⟨⟨vs, l⟩, hrun, h⟩ := Option.bind_eq_some_iff.1 h
    cases h
    obtain ⟨hus, hk⟩ := closed_of_step hm hstep
    obtain ⟨hvs, hl⟩ := ih hk hrun
    exact ⟨List.forall_mem_append.2 ⟨hus, hvs⟩, hl⟩

theorem closed_of_mem_tokens {text : String} {ts : List Token} (h : tokens text = some ts) :
    ∀ t ∈ ts, t.Closed := by
  unfold tokens at h
  split at h
  · next us hrun =>
    cases h
    exact (closed_of_run (m := .between) trivial hrun).1
  · cases h

/-! ## Statements are closed -/

/-- The keys and values among attributes. -/
def attributeTexts (attributes : List (String × String)) : List String :=
  attributes.flatMap fun a => [a.1, a.2]

/-- What a statement consists of. -/
def Statement.texts : Statement → List String
  | .setting key value => [key, value]
  | .defaults kind attributes => kind :: attributeTexts attributes
  | .node name attributes => name :: attributeTexts attributes
  | .edge source target attributes => source :: target :: attributeTexts attributes

/-- All that a statement consists of is closed. -/
def Statement.Closed (statement : Statement) : Prop := ∀ s ∈ statement.texts, isClosed s.toList = true

theorem closed_cons_attribute {key value : Token} {attributes : List (String × String)}
    {rest after : List Token} (hkey : key.Closed) (hvalue : value.Closed)
    (ih : ∀ attributes after, takeAttributes rest = some (attributes, after) →
      (∀ s ∈ attributeTexts attributes, isClosed s.toList = true) ∧ ∀ t ∈ after, t.Closed)
    (h : (do
      let (attributes, after) ← takeAttributes rest
      return ((← id? key, ← id? value) :: attributes, after)) = some (attributes, after)) :
    (∀ s ∈ attributeTexts attributes, isClosed s.toList = true) ∧ ∀ t ∈ after, t.Closed := by
  obtain ⟨⟨us, vs⟩, hrest, h⟩ := Option.bind_eq_some_iff.1 h
  obtain ⟨k, hk, h⟩ := Option.bind_eq_some_iff.1 h
  obtain ⟨v, hv, h⟩ := Option.bind_eq_some_iff.1 h
  cases h
  obtain ⟨hus, hvs⟩ := ih us _ hrest
  exact ⟨List.forall_mem_cons.2 ⟨hkey k hk, List.forall_mem_cons.2 ⟨hvalue v hv, hus⟩⟩, hvs⟩

theorem closed_of_takeAttributes {ts after : List Token} {attributes : List (String × String)}
    (hts : ∀ t ∈ ts, t.Closed) (h : takeAttributes ts = some (attributes, after)) :
    (∀ s ∈ attributeTexts attributes, isClosed s.toList = true) ∧ ∀ t ∈ after, t.Closed := by
  induction ts using takeAttributes.induct generalizing attributes after with
  | case1 rest =>
    rw [takeAttributes] at h
    cases h
    exact ⟨fun s hs => absurd hs List.not_mem_nil, (List.forall_mem_cons.1 hts).2⟩
  | case2 key value rest hkey ih =>
    rw [takeAttributes] at h
    · simp only [List.forall_mem_cons] at hts
      exact closed_cons_attribute hts.1 hts.2.2.1 (fun us vs hrest => ih hts.2.2.2.2 hrest) h
    · exact hkey
  | case3 key value rest hkey hcomma ih =>
    rw [takeAttributes] at h
    · simp only [List.forall_mem_cons] at hts
      exact closed_cons_attribute hts.1 hts.2.2.1 (fun us vs hrest => ih hts.2.2.2 hrest) h
    · exact hkey
    · exact hcomma
  | case4 ts hend hcomma hvalue =>
    rw [takeAttributes] at h
    · cases h
    · exact hend
    · exact hcomma
    · exact hvalue

theorem closed_of_takeBracket {ts after : List Token} {attributes : List (String × String)}
    (hts : ∀ t ∈ ts, t.Closed) (h : takeBracket ts = some (attributes, after)) :
    (∀ s ∈ attributeTexts attributes, isClosed s.toList = true) ∧ ∀ t ∈ after, t.Closed := by
  unfold takeBracket at h
  split at h
  · exact closed_of_takeAttributes (List.forall_mem_cons.1 hts).2 h
  · cases h
    exact ⟨fun s hs => absurd hs List.not_mem_nil, hts⟩

theorem closed_of_takeStatement {ts after : List Token} {statement : Statement}
    (hts : ∀ t ∈ ts, t.Closed) (h : takeStatement ts = some (statement, after)) :
    statement.Closed ∧ ∀ t ∈ after, t.Closed := by
  unfold takeStatement at h
  split at h
  · simp only [List.forall_mem_cons] at hts
    obtain ⟨⟨attributes, vs⟩, hbracket, h⟩ := Option.bind_eq_some_iff.1 h
    obtain ⟨source, hsource, h⟩ := Option.bind_eq_some_iff.1 h
    obtain ⟨target, htarget, h⟩ := Option.bind_eq_some_iff.1 h
    cases h
    obtain ⟨hattributes, hafter⟩ := closed_of_takeBracket hts.2.2.2 hbracket
    exact ⟨List.forall_mem_cons.2 ⟨hts.1 _ hsource,
      List.forall_mem_cons.2 ⟨hts.2.2.1 _ htarget, hattributes⟩⟩, hafter⟩
  · simp only [List.forall_mem_cons] at hts
    obtain ⟨key, hkey, h⟩ := Option.bind_eq_some_iff.1 h
    obtain ⟨value, hvalue, h⟩ := Option.bind_eq_some_iff.1 h
    cases h
    exact ⟨List.forall_mem_cons.2 ⟨hts.1 _ hkey, List.forall_mem_singleton.2 (hts.2.2.1 _ hvalue)⟩,
      hts.2.2.2⟩
  · rw [List.forall_mem_cons] at hts
    obtain ⟨⟨attributes, vs⟩, hbracket, h⟩ := Option.bind_eq_some_iff.1 h
    obtain ⟨name, hname, h⟩ := Option.bind_eq_some_iff.1 h
    cases h
    obtain ⟨hattributes, hafter⟩ := closed_of_takeBracket hts.2 hbracket
    refine ⟨?_, hafter⟩
    have htexts : ∀ s ∈ name :: attributeTexts attributes, isClosed s.toList = true :=
      List.forall_mem_cons.2 ⟨hts.1 _ hname, hattributes⟩
    split <;> exact htexts
  · cases h

theorem closed_of_skipSemicolon {ts : List Token} (hts : ∀ t ∈ ts, t.Closed) :
    ∀ t ∈ skipSemicolon ts, t.Closed := by
  unfold skipSemicolon
  split
  · exact (List.forall_mem_cons.1 hts).2
  · exact hts

theorem closed_of_takeStatements {fuel : Nat} {ts : List Token} {statements : List Statement}
    (hts : ∀ t ∈ ts, t.Closed) (h : takeStatements fuel ts = some statements) :
    ∀ statement ∈ statements, statement.Closed := by
  induction fuel generalizing ts statements with
  | zero =>
    unfold takeStatements at h
    split at h <;> cases h
    exact fun s hs => absurd hs List.not_mem_nil
  | succ fuel ih =>
    unfold takeStatements at h
    split at h
    · cases h
      exact fun s hs => absurd hs List.not_mem_nil
    · obtain ⟨⟨statement, rest⟩, hstatement, h⟩ := Option.bind_eq_some_iff.1 h
      obtain ⟨others, hothers, h⟩ := Option.bind_eq_some_iff.1 h
      cases h
      obtain ⟨hclosed, hrest⟩ := closed_of_takeStatement hts hstatement
      exact List.forall_mem_cons.2 ⟨hclosed, ih (closed_of_skipSemicolon hrest) hothers⟩

/-- All that statements consist of is closed. -/
theorem closed_of_read {text : String} {statements : List Statement} (h : read text = some statements) :
    ∀ statement ∈ statements, statement.Closed := by
  obtain ⟨ts, htokens, h⟩ := Option.bind_eq_some_iff.1 h
  have hts := closed_of_mem_tokens htokens
  split at h
  · obtain ⟨name, -, h⟩ := Option.bind_eq_some_iff.1 h
    simp only [List.forall_mem_cons] at hts
    exact closed_of_takeStatements hts.2.2.2 h
  · cases h

/-! ## Lines that are read on their own -/

/-- A part of a text is read as some statements, whatever follows it. -/
def Draws (part : String) (statements : List Statement) : Prop :=
  ∃ ts, Reads part ts ∧ statements.length ≤ ts.length ∧ ∀ rest fuel,
    takeStatements (fuel + statements.length) (ts ++ rest) =
      (takeStatements fuel rest).map (statements ++ ·)

theorem Draws.nil : Draws "" [] :=
  ⟨[], rfl, Nat.le_refl 0, fun rest fuel => by simp⟩

theorem Draws.append {part other : String} {ss us : List Statement} (h : Draws part ss)
    (h' : Draws other us) : Draws (part ++ other) (ss ++ us) := by
  obtain ⟨ts, hts, hlength, hread⟩ := h
  obtain ⟨vs, hvs, hlength', hread'⟩ := h'
  refine ⟨ts ++ vs, hts.append hvs, ?_, fun rest fuel => ?_⟩
  · rw [List.length_append, List.length_append]
    omega
  · have hfuel : fuel + (ss ++ us).length = fuel + us.length + ss.length := by
      rw [List.length_append]
      omega
    rw [hfuel, List.append_assoc, hread, hread', Option.map_map]
    simp [Function.comp_def]

/-- Lines that are read on their own are read one after the other. -/
theorem Draws.join {α : Type} {line : α → String} {statements : α → List Statement} {as : List α}
    (h : ∀ a ∈ as, Draws (line a) (statements a)) :
    Draws (String.join (as.map line)) (as.flatMap statements) := by
  induction as with
  | nil => exact .nil
  | cons a as ih =>
    rw [List.forall_mem_cons] at h
    rw [List.map_cons, String.join_cons, List.flatMap_cons]
    exact h.1.append (ih h.2)

/-- A line that consists of one statement. -/
theorem draws_of_takeStatement {line : String} {ts : List Token} {statement : Statement}
    (hts : Reads line ts) (hne : ts ≠ [])
    (h : ∀ rest, takeStatement (ts ++ rest) = some (statement, .mark ';' :: rest)) :
    Draws line [statement] := by
  refine ⟨ts, hts, List.length_pos_of_ne_nil hne, fun rest fuel => ?_⟩
  have hend : ts ++ rest ≠ [.mark '\x7d'] := by
    intro heq
    have htake := h rest
    rw [heq] at htake
    cases htake
  show takeStatements (fuel + 1) (ts ++ rest) = _
  rw [takeStatements, if_neg hend, h rest]
  cases hrest : takeStatements fuel rest <;> simp [skipSemicolon, hrest]

/-- The statements of a graph are those that its body is read as. -/
theorem Draws.read_eq {header body footer : String} {name : Token} {statements : List Statement}
    (h : Draws body statements) (hheader : Reads header [.word "digraph", name, .mark '\x7b'])
    (hname : (id? name).isSome) (hfooter : Reads footer [.mark '\x7d']) :
    read (header ++ body ++ footer) = some statements := by
  obtain ⟨ts, hts, hlength, htake⟩ := h
  obtain ⟨text, htext⟩ := Option.isSome_iff_exists.1 hname
  have htokens := ((hheader.append hts).append hfooter).tokens_eq
  have hend : ∀ fuel, takeStatements fuel [.mark '\x7d'] = some [] := by
    intro fuel
    cases fuel <;> rfl
  have hread := htake [.mark '\x7d'] (ts.length + 1 - statements.length)
  rw [Nat.sub_add_cancel (by omega), hend, Option.map_some, List.append_nil] at hread
  simp [read, htokens, htext, hread]

end Dot

end ShapeGraph
