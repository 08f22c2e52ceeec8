import ShapeGraph.Proofs.DotTexts

/-!
# What a drawing says

The drawing of a graph, read as a text in the DOT language, should say what the graph is made of: one
statement for each node, two for each top-level name, and one for each link.  It does unless the name of a
property or a top-level name ends the quotes that it is put in.

## Main definitions

* `TypeGraph.drawing` — the statements that a drawing should consist of.
* `TypeGraph.freeTexts` — the texts that are drawn as they are.

## Main results

* `TypeGraph.read_toDot_iff` — when a drawing is read as what it should consist of.

## Design

The text in the box of a node may hold anything: it has no quotes, and a backslash at the end of a name is
followed by what the box says behind the names.
-/

set_option autoImplicit false

namespace ShapeGraph

namespace TypeGraph

/-! ## The statements of a drawing -/

/-- What a drawing says about all nodes and arrows. -/
def headerStatements : List Dot.Statement :=
  [.setting "rankdir" "LR",
    .defaults "node"
      [("shape", "box"), ("style", "filled,rounded"), ("fontname", "Helvetica"), ("fontsize", "10")],
    .defaults "edge" [("fontname", "Helvetica"), ("fontsize", "8"), ("fontcolor", "#808080")]]

/-- What a drawing says about a node. -/
def nodeStatement (t : NodeId) (n : Node) : Dot.Statement :=
  .node (nodeName t) [("label", softenQuotes (boxText n)), ("fillcolor", fillColor n.shape.label)]

/-- What a drawing says about a top-level name: its label, and an arrow to its node. -/
def topLevelStatements (name : String) (t : NodeId) : List Dot.Statement :=
  [.node ("top:" ++ name) [("label", name), ("shape", "plaintext")],
    .edge ("top:" ++ name) (nodeName t) []]

/-- What a drawing says about a link. -/
def linkStatement (l : Link) : Dot.Statement :=
  .edge (nodeName l.source) (nodeName l.target) [("label", roleText l.role)]

/-- The statements that the drawing of a graph should consist of. -/
def drawing (g : TypeGraph) : List Dot.Statement :=
  headerStatements ++ g.nodes.mapIdx nodeStatement
    ++ g.topLevels.entries.flatMap (fun e => topLevelStatements e.1 e.2)
    ++ g.links.map linkStatement

/-- The texts that are drawn as they are: top-level names and names of properties. -/
def freeTexts (g : TypeGraph) : List String := g.topLevels.keys ++ g.links.map fun l => roleText l.role

/-! ## Names and boxes -/

theorem isClosed_nodeName (t : NodeId) : Dot.isClosed (nodeName t).toList = true := by
  have hdigits : (toString t).toList = Nat.toDigits 10 t := Nat.toList_repr
  rw [nodeName, String.toList_append, hdigits]
  refine Dot.isClosed_of_plain fun c hc => ?_
  rcases List.mem_append.1 hc with hc | hc
  · rw [List.mem_singleton.1 hc]
    decide
  · have hdigit := Nat.isDigit_of_mem_toDigits (by decide) (by decide) hc
    constructor <;> rintro rfl <;> cases hdigit

theorem isClosed_fillColor (label : String) : Dot.isClosed (fillColor label).toList = true := by
  unfold fillColor
  split <;> decide

/-- The words for the kinds of types. -/
def kindWords : List String :=
  ["any", "null", "bool", "integer", "double", "string", "date", "time", "date-time", "enum", "array", "map",
    "class", "union", "intersection"]

theorem label_mem_kindWords (shape : Shape) : shape.label ∈ kindWords := by
  cases shape with
  | primitive kind => cases kind <;> simp [kindWords, Shape.label, Primitive.name]
  | enum | array | map | record => simp [kindWords, Shape.label]
  | combination operation members => cases operation <;> simp [kindWords, Shape.label]

/-- The word for a kind of types has neither quotes nor backslashes. -/
theorem plain_label (shape : Shape) :
    shape.label.toList ≠ [] ∧ ∀ c ∈ shape.label.toList, c ≠ '"' ∧ c ≠ '\\' := by
  have hwords : ∀ w ∈ kindWords, w.toList ≠ [] ∧ ∀ c ∈ w.toList, c ≠ '"' ∧ c ≠ '\\' := by
    simp [kindWords]
  exact hwords _ (label_mem_kindWords shape)

/-- Whatever stands before it, a plain text completes the last escape. -/
theorem closesBehind_append_plain {escaped : Bool} {cs ds : List Char} (hcs : '"' ∉ cs) (hne : ds ≠ [])
    (hds : ∀ d ∈ ds, d ≠ '"' ∧ d ≠ '\\') : Dot.closesBehind escaped (cs ++ ds) = true := by
  induction cs generalizing escaped with
  | nil =>
    cases escaped with
    | false => exact Dot.isClosed_of_plain hds
    | true =>
      obtain ⟨d, ds, rfl⟩ := List.exists_cons_of_ne_nil hne
      exact Dot.isClosed_of_plain (List.forall_mem_cons.1 hds).2
  | cons c cs ih =>
    rw [List.mem_cons, not_or] at hcs
    cases escaped with
    | false =>
      rw [List.cons_append, Dot.closesBehind, ih hcs.2, Bool.and_true, decide_eq_true_iff]
      exact Ne.symm hcs.1
    | true => exact ih hcs.2

theorem softenQuotes_append (s t : String) : softenQuotes (s ++ t) = softenQuotes s ++ softenQuotes t := by
  simp [softenQuotes, String.ofList_append]

theorem quote_not_mem_softenQuotes (s : String) : '"' ∉ (softenQuotes s).toList := by
  rw [softenQuotes, String.toList_ofList, List.mem_map]
  rintro ⟨c, -, hc⟩
  split_ifs at hc with hquote
  · cases hc
  · exact hquote hc

theorem softenQuotes_of_plain {s : String} (h : ∀ c ∈ s.toList, c ≠ '"' ∧ c ≠ '\\') :
    softenQuotes s = s := by
  have hmap : s.toList.map (fun c => if c = '"' then '\'' else c) = s.toList :=
    (List.map_congr_left fun c hc => if_neg (h c hc).1).trans (List.map_id s.toList)
  rw [softenQuotes, hmap, String.ofList_toList]

/-- The text in a box is what stands before the word for the kind of the node, and this word. -/
theorem exists_boxText_eq (n : Node) : ∃ names, boxText n = names ++ n.shape.label := by
  simp only [boxText]
  split
  · exact ⟨"", String.empty_append.symm⟩
  · exact ⟨_, rfl⟩

theorem isClosed_softenQuotes_boxText (n : Node) :
    Dot.isClosed (softenQuotes (boxText n)).toList = true := by
  obtain ⟨names, htext⟩ := exists_boxText_eq n
  obtain ⟨hne, hplain⟩ := plain_label n.shape
  rw [htext, softenQuotes_append, softenQuotes_of_plain hplain, String.toList_append]
  exact closesBehind_append_plain (quote_not_mem_softenQuotes names) hne
    hplain

/-! ## Lines -/

theorem reads_indent : Dot.Reads "  " [] := by decide

theorem reads_label : Dot.Reads " [label=" [.mark '[', .word "label", .mark '='] := by decide

theorem reads_arrow : Dot.Reads " -> " [.arrow] := by decide

theorem reads_end : Dot.Reads "];\n" [.mark ']', .mark ';'] := by decide

theorem draws_dotNode (t : NodeId) (n : Node) : Dot.Draws (dotNode t n) [nodeStatement t n] := by
  have hcolor : Dot.Reads ", fillcolor=" [.mark ',', .word "fillcolor", .mark '='] := by decide
  have hline := (((((reads_indent.append (Dot.reads_quoted (isClosed_nodeName t))).append
    reads_label).append (Dot.reads_quoted (isClosed_softenQuotes_boxText n))).append hcolor).append
    (Dot.reads_quoted (isClosed_fillColor n.shape.label))).append reads_end
  exact Dot.draws_of_takeStatement hline (List.cons_ne_nil _ _) fun rest => rfl

theorem draws_dotTopLevel {name : String} (t : NodeId) (h : Dot.isClosed name.toList = true) :
    Dot.Draws (dotTopLevel name t) (topLevelStatements name t) := by
  have hshape : Dot.Reads ", shape=plaintext];\n"
      [.mark ',', .word "shape", .mark '=', .word "plaintext", .mark ']', .mark ';'] := by decide
  have hsemicolon : Dot.Reads ";\n" [.mark ';'] := by decide
  have htop : Dot.isClosed ("top:" ++ name).toList = true := by
    rw [String.toList_append]
    exact Dot.closesBehind_append rfl h
  have hlabel := (((reads_indent.append (Dot.reads_quoted htop)).append reads_label).append
    (Dot.reads_quoted h)).append hshape
  have harrow := (((reads_indent.append (Dot.reads_quoted htop)).append reads_arrow).append
    (Dot.reads_quoted (isClosed_nodeName t))).append hsemicolon
  have hlabelled : Dot.Draws _ [.node ("top:" ++ name) [("label", name), ("shape", "plaintext")]] :=
    Dot.draws_of_takeStatement hlabel (List.cons_ne_nil _ _) fun rest => rfl
  have hpointed : Dot.Draws _ [.edge ("top:" ++ name) (nodeName t) []] :=
    Dot.draws_of_takeStatement harrow (List.cons_ne_nil _ _) fun rest => rfl
  have hlines := hlabelled.append hpointed
  simp only [String.append_assoc] at hlines
  simp only [dotTopLevel, String.append_assoc]
  exact hlines

theorem draws_dotLink {l : Link} (h : Dot.isClosed (roleText l.role).toList = true) :
    Dot.Draws (dotLink l) [linkStatement l] := by
  have hline := (((((reads_indent.append (Dot.reads_quoted (isClosed_nodeName l.source))).append
    reads_arrow).append (Dot.reads_quoted (isClosed_nodeName l.target))).append reads_label).append
    (Dot.reads_quoted h)).append reads_end
  exact Dot.draws_of_takeStatement hline (List.cons_ne_nil _ _) fun rest => rfl

/-! ## Drawings -/

theorem draws_blank : Dot.Draws "\n" [] :=
  ⟨[], by decide, Nat.le_refl 0, fun rest fuel => by simp⟩

theorem draws_header : Dot.Draws
    ("  rankdir=LR;\n"
      ++ "  node [shape=box, style=\"filled,rounded\", fontname=\"Helvetica\", fontsize=10];\n"
      ++ "  edge [fontname=\"Helvetica\", fontsize=8, fontcolor=\"#808080\"];\n"
      ++ "\n") headerStatements := by
  have hsetting : Dot.Reads "  rankdir=LR;\n" [.word "rankdir", .mark '=', .word "LR", .mark ';'] := by
    decide
  have hnodes : Dot.Reads
      "  node [shape=box, style=\"filled,rounded\", fontname=\"Helvetica\", fontsize=10];\n"
      [.word "node", .mark '[', .word "shape", .mark '=', .word "box", .mark ',', .word "style", .mark '=',
        .text "filled,rounded", .mark ',', .word "fontname", .mark '=', .text "Helvetica", .mark ',',
        .word "fontsize", .mark '=', .word "10", .mark ']', .mark ';'] := by decide +kernel
  have hedges : Dot.Reads "  edge [fontname=\"Helvetica\", fontsize=8, fontcolor=\"#808080\"];\n"
      [.word "edge", .mark '[', .word "fontname", .mark '=', .text "Helvetica", .mark ',',
        .word "fontsize", .mark '=', .word "8", .mark ',', .word "fontcolor", .mark '=', .text "#808080",
        .mark ']', .mark ';'] := by decide +kernel
  exact (((Dot.draws_of_takeStatement hsetting (List.cons_ne_nil _ _) fun rest => rfl).append
    (Dot.draws_of_takeStatement hnodes (List.cons_ne_nil _ _) fun rest => rfl)).append
    (Dot.draws_of_takeStatement hedges (List.cons_ne_nil _ _) fun rest => rfl)).append draws_blank

variable {g : TypeGraph}

theorem draws_nodes (g : TypeGraph) :
    Dot.Draws (String.join (g.nodes.mapIdx dotNode)) (g.nodes.mapIdx nodeStatement) := by
  have hlines : Dot.Draws _ (g.nodes.zipIdx.flatMap fun p => [nodeStatement p.2 p.1]) :=
    Dot.Draws.join fun p _ => draws_dotNode p.2 p.1
  simp only [List.mapIdx_eq_zipIdx_map]
  simpa only [List.map_eq_flatMap] using hlines

/-- If the texts that are drawn as they are may stand between quotes, a drawing is read as what it should
consist of. -/
theorem read_toDot_of_closed (h : ∀ text ∈ g.freeTexts, Dot.isClosed text.toList = true) :
    Dot.read g.toDot = some g.drawing := by
  obtain ⟨htops, hroles⟩ := List.forall_mem_append.1 h
  have htopLevels : Dot.Draws (String.join (g.topLevels.entries.map fun e => dotTopLevel e.1 e.2))
      (g.topLevels.entries.flatMap fun e => topLevelStatements e.1 e.2) :=
    Dot.Draws.join fun e he => draws_dotTopLevel e.2 (htops e.1 (List.mem_map_of_mem he))
  have hlinks : Dot.Draws (String.join (g.links.map dotLink)) (g.links.map linkStatement) := by
    have hlines : Dot.Draws _ (g.links.flatMap fun l => [linkStatement l]) :=
      Dot.Draws.join fun l hl => draws_dotLink (hroles _ (List.mem_map_of_mem hl))
    rwa [← List.map_eq_flatMap] at hlines
  have hbody := (((draws_header.append (draws_nodes g)).append draws_blank).append htopLevels).append hlinks
  have hopen : Dot.Reads "digraph TypeGraph \x7b\n" [.word "digraph", .word "TypeGraph", .mark '\x7b'] := by
    decide
  have hclose : Dot.Reads "\x7d\n" [.mark '\x7d'] := by decide
  have hread := hbody.read_eq hopen (by decide) hclose
  rw [List.append_nil] at hread
  unfold toDot dotHeader drawing
  simp only [String.append_assoc, -String.reduceAppend] at hread ⊢
  exact hread

/-- What a drawing should consist of holds the texts that are drawn as they are. -/
theorem exists_mem_drawing {text : String} (h : text ∈ g.freeTexts) :
    ∃ statement ∈ g.drawing, text ∈ statement.texts := by
  rcases List.mem_append.1 h with h | h
  · obtain ⟨e, he, rfl⟩ := List.mem_map.1 h
    refine ⟨.node ("top:" ++ e.1) [("label", e.1), ("shape", "plaintext")], ?_, ?_⟩
    · exact List.mem_append_left _ (List.mem_append_right _
        (List.mem_flatMap.2 ⟨e, he, List.mem_cons_self⟩))
    · simp [Dot.Statement.texts, Dot.attributeTexts]
  · obtain ⟨l, hl, rfl⟩ := List.mem_map.1 h
    refine ⟨linkStatement l, List.mem_append_right _ (List.mem_map_of_mem hl), ?_⟩
    simp [linkStatement, Dot.Statement.texts, Dot.attributeTexts]

/-- A text that is drawn as it is may stand between quotes if the drawing is read as what it should consist
of. -/
theorem closed_of_read_toDot (h : Dot.read g.toDot = some g.drawing) {text : String}
    (htext : text ∈ g.freeTexts) : Dot.isClosed text.toList = true := by
  obtain ⟨statement, hstatement, hmem⟩ := exists_mem_drawing htext
  exact Dot.closed_of_read h statement hstatement text hmem

/-- A drawing is read as one statement for each node, two for each top-level name and one for each link, with
their texts and ends, just in case the names that are drawn as they are may stand between quotes. -/
theorem read_toDot_iff (g : TypeGraph) : Dot.read g.toDot = some g.drawing ↔
    ∀ text ∈ g.freeTexts, Dot.isClosed text.toList = true :=
  ⟨fun h _ => closed_of_read_toDot h, read_toDot_of_closed⟩

/-- A quote in a top-level name ends its label. -/
theorem not_forall_read_toDot : ¬ ∀ requests : List Request,
    Dot.read (TypeGraph.empty.performAll requests).toDot =
      some (TypeGraph.empty.performAll requests).drawing := by
  intro h
  have hname : (TypeGraph.empty.performAll [.primitive .string, .addTopLevel "a\"b" 0]).topLevels.keys =
      ["a\"b"] := rfl
  have hclosed : Dot.isClosed "a\"b".toList = true :=
    closed_of_read_toDot (h [.primitive .string, .addTopLevel "a\"b" 0])
      (List.mem_append_left _ (hname ▸ List.mem_singleton_self _))
  exact absurd hclosed (by decide)

end TypeGraph

end ShapeGraph
