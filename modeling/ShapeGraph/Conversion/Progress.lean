import ShapeGraph.Documents.Source
import ShapeGraph.Graph.Build
import ShapeGraph.Place

/-!
# The progress of a conversion

Converting schemas builds a type graph step by step, remembers which node each path stands for, and
fetches further documents on the way.

## Main definitions

* `Progress` — the graph, the source of documents, the paths bound so far, and the references that
  are being followed.
* `Conversion` — a computation that advances the progress and may fail.
* `Conversion.bind` — let a path stand for a node, once and for all.
* `Conversion.withChain`, `Conversion.whileFollowing` — run with other references, or with one more,
  being followed.

## Implementation notes

A failure ends a conversion but undoes nothing: what has been bound and built stays.
-/

set_option autoImplicit false

namespace ShapeGraph

/-- How far a conversion has come. -/
structure Progress (σ : Type) where
  /-- The graph built so far. -/
  graph : TypeGraph
  /-- Where documents come from. -/
  documents : σ
  /-- The node that each path stands for, the latest first. -/
  bound : List (Reference × NodeId)
  /-- The places of the references that are being followed, as far as they have led to nothing but
  references, the innermost last. -/
  chain : List Reference

/-- The node that a path stands for, if it has been bound.  Paths of another length are passed over
quickly. -/
def Progress.nodeOf? {σ : Type} (s : Progress σ) (path : Reference) : Option NodeId :=
  let length := path.elements.length
  (s.bound.find? fun e => e.1.elements.length == length && e.1 == path).map Prod.snd

/-- Passing over paths of another length skips no path that is the same. -/
theorem Progress.nodeOf?_eq_lookup {σ : Type} (s : Progress σ) (path : Reference) :
    s.nodeOf? path = s.bound.lookup path := by
  unfold Progress.nodeOf?
  induction s.bound with
  | nil => rfl
  | cons e rest ih =>
    obtain ⟨other, t⟩ := e
    by_cases h : path = other
    · simp [h]
    · have h' : ¬ other = path := fun h' => h h'.symm
      have hb : (path == other) = false := by simpa using h
      simpa [List.lookup_cons, hb, h'] using ih

/-- The start of a conversion. -/
def Progress.start {σ : Type} (documents : σ) : Progress σ := ⟨.empty, documents, [], []⟩

/-- A computation that advances a conversion or fails. -/
abbrev Conversion (σ α : Type) : Type := EStateM Failure (Progress σ) α

namespace Conversion

variable {σ α : Type}

/-! ## Results of plain functions -/

/-- A result that does not touch the progress. -/
def ofResult (result : Except Failure α) : Conversion σ α :=
  match result with
  | .ok a => pure a
  | .error failure => throw failure

/-- Change the graph. -/
def onGraph (f : TypeGraph → α × TypeGraph) : Conversion σ α :=
  modifyGet fun s => ((f s.graph).1, { s with graph := (f s.graph).2 })

/-- Set the members of a union or intersection. -/
def setMembers (t : NodeId) (members : SortedSet NodeId) : Conversion σ Unit := do
  ofResult (← onGraph (·.setMembers t members))

/-- Attach attributes to a node. -/
def addAttributes (t : NodeId) (attributes : Attributes) : Conversion σ Unit :=
  onGraph fun g => ((), g.addAttributes t attributes)

/-- Fetch a document. -/
def fetch [DocumentSource σ] (address : String) : Conversion σ Json := do
  let s ← get
  let (result, documents) := DocumentSource.fetch s.documents address
  set { s with documents := documents }
  ofResult result

/-! ## Paths -/

/-- The node that a path stands for, if it has been bound. -/
def bound? (path : Reference) : Conversion σ (Option NodeId) := do
  return (← get).nodeOf? path

/-- Let a path stand for a node.  It must not stand for another one already. -/
def bind (path : Reference) (t : NodeId) : Conversion σ Unit := do
  match ← bound? path with
  | none => modify fun s => { s with bound := (path, t) :: s.bound }
  | some other => if other = t then pure () else throw (.conflictingBinding path)

/-! ## References being followed -/

/-- Run with the references being followed that `enter` gives for those at the start.  Afterwards, also
after a failure, those are followed that `leave` gives for those at the start and those at the end. -/
def onChain (enter : List Reference → List Reference)
    (leave : List Reference → List Reference → List Reference) (x : Conversion σ α) :
    Conversion σ α := fun s =>
  match x { s with chain := enter s.chain } with
  | .ok a s' => .ok a { s' with chain := leave s.chain s'.chain }
  | .error failure s' => .error failure { s' with chain := leave s.chain s'.chain }

/-- Run with other references being followed; afterwards, also after a failure, those from before
are followed again. -/
def withChain (chain : List Reference) (x : Conversion σ α) : Conversion σ α :=
  onChain (fun _ => chain) (fun before _ => before) x

/-- Run with one more reference being followed; afterwards, also after a failure, the innermost of
those that are followed then is dropped. -/
def whileFollowing (path : Reference) (x : Conversion σ α) : Conversion σ α :=
  onChain (· ++ [path]) (fun _ after => after.dropLast) x

end Conversion

end ShapeGraph
