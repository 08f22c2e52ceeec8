import Mathlib.Data.List.Forall2
import ShapeGraph.Proofs.Corpus
import ShapeGraph.Proofs.Growth
import ShapeGraph.Proofs.Membership

/-!
# What the nodes of schemas are

Which node a schema stands for is described field by field: by the shape of the node, and by the
nodes that the paths of the schemas inside it stand for.  The description does not tell in which
order a conversion goes about it, and it makes sense for schemas that lead back to themselves.

## Main definitions

* `Progress.EnumNode`, `Progress.ItemsNode`, `Progress.ObjectNode`, `Progress.TypeNode`,
  `Progress.SchemaNode` — the node is what a part of a schema calls for.
* `Corpus.Describes` — the node is what the schema at a place calls for.

## Main results

* `Corpus.Describes.mono` — building on does not change what has been described.
* `Progress.SchemaNode.schemaShaped` — only schemas of the right shape have a node.
* `Progress.SchemaNode.inner_bound` — the schemas inside one that has a node have nodes.
-/

set_option autoImplicit false

namespace ShapeGraph

namespace Progress

variable {σ : Type}

/-! ## Nodes by their shape -/

/-- The node of any type. -/
def IsAny (s : Progress σ) (t : NodeId) : Prop := s.graph.shape? t = some (.primitive .any)

/-- A map of anything. -/
def IsAnyMap (s : Progress σ) (t : NodeId) : Prop :=
  ∃ any, s.IsAny any ∧ s.graph.shape? t = some (.map any)

/-- A union or intersection of exactly the given nodes. -/
def Combines (s : Progress σ) (operation : Operation) (t : NodeId) (nodes : List NodeId) : Prop :=
  ∃ members, s.graph.shape? t = some (.combination operation (some members)) ∧ members.Lists nodes

/-- A union or intersection of exactly the given nodes, or, if there are none, of a single one of some
other kind. -/
def CombinesOr (s : Progress σ) (other : NodeId → Prop) (operation : Operation) (t : NodeId)
    (nodes : List NodeId) : Prop :=
  ∃ members, s.graph.shape? t = some (.combination operation (some members)) ∧
    members.ListsOr other nodes

/-- The nodes that some paths stand for, in order. -/
def Binds (s : Progress σ) (paths : List Reference) (nodes : List NodeId) : Prop :=
  List.Forall₂ (fun path t => s.nodeOf? path = some t) paths nodes

/-! ## Enums -/

/-- The node of an `enum`: of its distinct strings in order, of `null` if there is nothing else, or a
union of both. -/
def EnumNode (s : Progress σ) (cases : Json) (t : NodeId) : Prop :=
  ∃ items, cases = .arr items ∧ Json.EnumListed items ∧
    ((.null ∉ items ∧ s.graph.shape? t = some (.enum (Json.texts items))) ∨
      (.null ∈ items ∧ Json.texts items = [] ∧ s.graph.shape? t = some (.primitive .null)) ∨
      (.null ∈ items ∧ Json.texts items ≠ [] ∧ ∃ enum null,
        s.graph.shape? enum = some (.enum (Json.texts items)) ∧
          s.graph.shape? null = some (.primitive .null) ∧ s.Combines .union t [enum, null]))

/-! ## Lists of schemas -/

/-- The paths of the schemas under a combinator. -/
def branchPaths (path : Reference) (combinator : Combinator) (schemas : List Json) :
    List Reference :=
  (List.range schemas.length).map fun i => path.push (.branch combinator i)

/-- The nodes that `allOf` contributes: those of its schemas. -/
def AllOfNodes (s : Progress σ) (place : Place) (nodes : List NodeId) : Prop :=
  match place.fragment.get? Combinator.allOf.keyword with
  | none => nodes = []
  | some (.arr schemas) => s.Binds (branchPaths place.path .allOf schemas) nodes
  | some _ => False

/-- The node that `oneOf` or `anyOf` contributes: a union of those of its schemas. -/
def ChoiceNode (s : Progress σ) (place : Place) (combinator : Combinator) (t? : Option NodeId) :
    Prop :=
  match place.fragment.get? combinator.keyword with
  | none => t? = none
  | some (.arr schemas) => ∃ t nodes, t? = some t ∧
      s.Binds (branchPaths place.path combinator schemas) nodes ∧ s.Combines .union t nodes
  | some _ => False

/-! ## Arrays -/

/-- The paths of the schemas for each position of an array type. -/
def positionPaths (path : Reference) (positions : List Json) : List Reference :=
  (List.range positions.length).map fun i => (path.push (.key "items")).push (.key (toString i))

/-- The node of an array type's items. -/
def ItemsNode (s : Progress σ) (schema : Json) (path : Reference) (t : NodeId) : Prop :=
  match schema.get? "items" with
  | none => s.IsAny t
  | some (.arr positions) => ∃ nodes, s.Binds (positionPaths path positions) nodes ∧
      s.CombinesOr s.IsAny .union t nodes
  | some (.obj _) | some (.bool _) => s.nodeOf? (path.push (.key "items")) = some t
  | some _ => False

/-! ## Objects -/

/-- The class that `properties` contributes, with one property for each member in order. -/
def ClassNode (s : Progress σ) (schema : Json) (path : Reference) (t? : Option NodeId) : Prop :=
  match schema.get? "properties" with
  | none => t? = none
  | some (.obj members) => schema.RequiredListed ∧ ∃ t properties, t? = some t ∧
      s.graph.shape? t = some (.record properties) ∧
        List.Forall₂ (fun member property => property.name = member.1 ∧
          s.nodeOf? (path.pushKeys ["properties", member.1]) = some property.target ∧
            (property.optional = true ↔ ¬ schema.Requires member.1)) members properties
  | some _ => False

/-- What `additionalProperties` contributes: a map, or, if it excludes further properties and none are
named, a class without properties. -/
def MapNode (s : Progress σ) (schema : Json) (path : Reference) (t? : Option NodeId) : Prop :=
  match schema.get? "additionalProperties" with
  | none => t? = none
  | some (.bool false) =>
    if schema.has "properties" then t? = none
    else ∃ t, t? = some t ∧ s.graph.shape? t = some (.record [])
  | some (.bool true) => ∃ t, t? = some t ∧ s.IsAnyMap t
  | some (.obj _) => ∃ t values, t? = some t ∧
      s.nodeOf? (path.push (.key "additionalProperties")) = some values ∧
        s.graph.shape? t = some (.map values)
  | some _ => False

/-- The node of an object type: a union of what its fields contribute, or of a map of anything.  Its
path stands for it. -/
def ObjectNode (s : Progress σ) (schema : Json) (path : Reference) (t : NodeId) : Prop :=
  s.nodeOf? path = some t ∧ ∃ record? map?, s.ClassNode schema path record? ∧
    s.MapNode schema path map? ∧ s.CombinesOr s.IsAnyMap .union t (record?.toList ++ map?.toList)

/-! ## Types -/

/-- The node of a type that a schema names, which is converted at a path. -/
def TypeNode (s : Progress σ) (schema : Json) (name : String) (path : Reference) (t : NodeId) :
    Prop :=
  match TypeName.ofText? name with
  | none => False
  | some .object => s.ObjectNode schema path t
  | some .array => ∃ items, s.ItemsNode schema path items ∧ s.graph.shape? t = some (.array items)
  | some .boolean => s.graph.shape? t = some (.primitive .bool)
  | some .null => s.graph.shape? t = some (.primitive .null)
  | some .integer => s.graph.shape? t = some (.primitive .integer)
  | some .number => s.graph.shape? t = some (.primitive .double)
  | some .string => s.graph.shape? t = some (.primitive (Conversion.stringKind schema))

/-- What the types of a schema contribute: the node of a single one or a union of several. -/
def TypesNode (s : Progress σ) (place : Place) (t? : Option NodeId) : Prop :=
  ∃ nodes, List.Forall₂ (fun e n => s.TypeNode place.fragment e.1 e.2 n) place.typePaths nodes ∧
    match nodes with
    | [] => t? = none
    | [t] => t? = some t
    | several => ∃ t, t? = some t ∧ s.Combines .union t several

/-! ## Schemas -/

/-- The node of a schema that is neither reference nor enum: an intersection of what its keywords
contribute, or of any type. -/
def SchemaNode (s : Progress σ) (place : Place) (t : NodeId) : Prop :=
  ∃ all one? any? types?, s.AllOfNodes place all ∧ s.ChoiceNode place .oneOf one? ∧
    s.ChoiceNode place .anyOf any? ∧ place.fragment.TypesListed ∧ s.TypesNode place types? ∧
      s.CombinesOr s.IsAny .intersection t (all ++ one?.toList ++ any?.toList ++ types?.toList)

end Progress

namespace Corpus

variable {σ : Type}

/-- The node is what the schema at a place calls for. -/
def Describes (c : Corpus) (s : Progress σ) (place : Place) (t : NodeId) : Prop :=
  match place.fragment with
  | .bool _ => s.IsAny t
  | .obj _ =>
    match place.fragment.get? "$ref" with
    | some value => ∃ found, c.target? place value = some found ∧ s.nodeOf? found.path = some t
    | none =>
      match place.fragment.get? "enum" with
      | some cases => s.EnumNode cases t
      | none => s.SchemaNode place t
  | _ => False

end Corpus

namespace Progress

variable {σ : Type} {s s' s'' : Progress σ}

/-! ## Building on -/

/-- All that has been described stays as it is: shapes, apart from members that are not set yet, and
bindings. -/
structure Retains (s s' : Progress σ) : Prop where
  graph : s.graph.Retains s'.graph
  bound : ∀ path t, s.nodeOf? path = some t → s'.nodeOf? path = some t

theorem Retains.trans (h : s.Retains s') (h' : s'.Retains s'') : s.Retains s'' where
  graph t shape hshape ht := h'.graph t shape hshape (h.graph t shape hshape ht)
  bound path t ht := h'.bound path t (h.bound path t ht)

theorem IsAny.mono (h : s.Retains s') {t : NodeId} (ht : s.IsAny t) : s'.IsAny t :=
  h.graph t _ rfl ht

theorem IsAnyMap.mono (h : s.Retains s') {t : NodeId} (ht : s.IsAnyMap t) : s'.IsAnyMap t := by
  obtain ⟨any, hany, hshape⟩ := ht
  exact ⟨any, hany.mono h, h.graph t _ rfl hshape⟩

theorem Combines.mono (h : s.Retains s') {operation : Operation} {t : NodeId} {nodes : List NodeId}
    (ht : s.Combines operation t nodes) : s'.Combines operation t nodes := by
  obtain ⟨members, hshape, hmembers⟩ := ht
  exact ⟨members, h.graph t _ rfl hshape, hmembers⟩

theorem CombinesOr.mono (h : s.Retains s') {other other' : NodeId → Prop} {operation : Operation}
    {t : NodeId} {nodes : List NodeId} (hother : ∀ n, other n → other' n)
    (ht : s.CombinesOr other operation t nodes) : s'.CombinesOr other' operation t nodes := by
  obtain ⟨members, hshape, hmembers⟩ := ht
  exact ⟨members, h.graph t _ rfl hshape, hmembers.imp hother⟩

theorem Binds.mono (h : s.Retains s') {paths : List Reference} {nodes : List NodeId}
    (hnodes : s.Binds paths nodes) : s'.Binds paths nodes :=
  hnodes.imp fun path t ht => h.bound path t ht

theorem EnumNode.mono (h : s.Retains s') {cases : Json} {t : NodeId} (ht : s.EnumNode cases t) :
    s'.EnumNode cases t := by
  obtain ⟨items, hitems, hlisted, hcases⟩ := ht
  refine ⟨items, hitems, hlisted, ?_⟩
  rcases hcases with ⟨hnull, hshape⟩ | ⟨hnull, htexts, hshape⟩ |
    ⟨hnull, htexts, enum, null, henum, hnull', hcombines⟩
  · exact Or.inl ⟨hnull, h.graph t _ rfl hshape⟩
  · exact Or.inr (Or.inl ⟨hnull, htexts, h.graph t _ rfl hshape⟩)
  · exact Or.inr (Or.inr ⟨hnull, htexts, enum, null, h.graph _ _ rfl henum,
      h.graph _ _ rfl hnull', hcombines.mono h⟩)

theorem AllOfNodes.mono (h : s.Retains s') {place : Place} {nodes : List NodeId}
    (hnodes : s.AllOfNodes place nodes) : s'.AllOfNodes place nodes := by
  unfold AllOfNodes at hnodes ⊢
  split
  · simpa only [*] using hnodes
  · next schemas hschemas =>
    rw [hschemas] at hnodes
    exact Binds.mono h hnodes
  · simp_all

theorem ChoiceNode.mono (h : s.Retains s') {place : Place} {combinator : Combinator}
    {t? : Option NodeId} (ht : s.ChoiceNode place combinator t?) :
    s'.ChoiceNode place combinator t? := by
  unfold ChoiceNode at ht ⊢
  split
  · simpa only [*] using ht
  · next schemas hschemas =>
    rw [hschemas] at ht
    obtain ⟨t, nodes, rfl, hnodes, hcombines⟩ := ht
    exact ⟨t, nodes, rfl, hnodes.mono h, hcombines.mono h⟩
  · simp_all

theorem ItemsNode.mono (h : s.Retains s') {schema : Json} {path : Reference} {t : NodeId}
    (ht : s.ItemsNode schema path t) : s'.ItemsNode schema path t := by
  unfold ItemsNode at ht ⊢
  split
  · next hnone =>
    rw [hnone] at ht
    exact IsAny.mono h ht
  · next positions hpositions =>
    rw [hpositions] at ht
    obtain ⟨nodes, hnodes, hcombines⟩ := ht
    exact ⟨nodes, hnodes.mono h, hcombines.mono h fun n hn => hn.mono h⟩
  · next hitems =>
    rw [hitems] at ht
    exact h.bound _ _ ht
  · next hitems =>
    rw [hitems] at ht
    exact h.bound _ _ ht
  · simp_all

theorem ClassNode.mono (h : s.Retains s') {schema : Json} {path : Reference} {t? : Option NodeId}
    (ht : s.ClassNode schema path t?) : s'.ClassNode schema path t? := by
  unfold ClassNode at ht ⊢
  split
  · simpa only [*] using ht
  · next members hmembers =>
    rw [hmembers] at ht
    obtain ⟨hrequired, t, properties, rfl, hshape, hproperties⟩ := ht
    refine ⟨hrequired, t, properties, rfl, h.graph _ _ rfl hshape, hproperties.imp ?_⟩
    rintro member property ⟨hname, htarget, hoptional⟩
    exact ⟨hname, h.bound _ _ htarget, hoptional⟩
  · simp_all

theorem MapNode.mono (h : s.Retains s') {schema : Json} {path : Reference} {t? : Option NodeId}
    (ht : s.MapNode schema path t?) : s'.MapNode schema path t? := by
  unfold MapNode at ht ⊢
  split
  · simpa only [*] using ht
  · next hfalse =>
    rw [hfalse] at ht
    dsimp only at ht
    split
    · next hproperties => rwa [if_pos hproperties] at ht
    · next hproperties =>
      rw [if_neg hproperties] at ht
      obtain ⟨t, rfl, hshape⟩ := ht
      exact ⟨t, rfl, h.graph _ _ rfl hshape⟩
  · next htrue =>
    rw [htrue] at ht
    obtain ⟨t, rfl, hany⟩ := ht
    exact ⟨t, rfl, hany.mono h⟩
  · next members hmembers =>
    rw [hmembers] at ht
    obtain ⟨t, values, rfl, hvalues, hshape⟩ := ht
    exact ⟨t, values, rfl, h.bound _ _ hvalues, h.graph _ _ rfl hshape⟩
  · simp_all

theorem ObjectNode.mono (h : s.Retains s') {schema : Json} {path : Reference} {t : NodeId}
    (ht : s.ObjectNode schema path t) : s'.ObjectNode schema path t := by
  obtain ⟨hbound, record?, map?, hrecord, hmap, hcombines⟩ := ht
  exact ⟨h.bound _ _ hbound, record?, map?, hrecord.mono h, hmap.mono h,
    hcombines.mono h fun n hn => hn.mono h⟩

theorem TypeNode.mono (h : s.Retains s') {schema : Json} {name : String} {path : Reference}
    {t : NodeId} (ht : s.TypeNode schema name path t) : s'.TypeNode schema name path t := by
  unfold TypeNode at ht ⊢
  cases hname : TypeName.ofText? name with
  | none => simp only [hname] at ht
  | some type =>
    rw [hname] at ht
    cases type with
    | object => exact ObjectNode.mono h ht
    | array =>
      obtain ⟨items, hitems, hshape⟩ := ht
      exact ⟨items, hitems.mono h, h.graph _ _ rfl hshape⟩
    | boolean | null | integer | number | string => exact h.graph _ _ rfl ht

theorem TypesNode.mono (h : s.Retains s') {place : Place} {t? : Option NodeId}
    (ht : s.TypesNode place t?) : s'.TypesNode place t? := by
  obtain ⟨nodes, hnodes, hcases⟩ := ht
  refine ⟨nodes, hnodes.imp fun e n hn => hn.mono h, ?_⟩
  match nodes, hcases with
  | [], hcases => exact hcases
  | [t], hcases => exact hcases
  | _ :: _ :: _, ⟨t, ht, hcombines⟩ => exact ⟨t, ht, hcombines.mono h⟩

theorem SchemaNode.mono (h : s.Retains s') {place : Place} {t : NodeId} (ht : s.SchemaNode place t) :
    s'.SchemaNode place t := by
  obtain ⟨all, one?, any?, types?, hall, hone, hany, hlisted, htypes, hcombines⟩ := ht
  exact ⟨all, one?, any?, types?, hall.mono h, hone.mono h, hany.mono h, hlisted, htypes.mono h,
    hcombines.mono h fun n hn => hn.mono h⟩

/-! ## The right shape -/

/-- The node of an object type tells that its fields have the right shape. -/
theorem ObjectNode.objectShaped {schema : Json} {path : Reference} {t : NodeId}
    (h : s.ObjectNode schema path t) : schema.ObjectShaped := by
  obtain ⟨-, record?, map?, hrecord, hmap, -⟩ := h
  refine ⟨fun value hvalue => ?_, fun hhas => ?_, fun value hvalue => ?_⟩
  · unfold ClassNode at hrecord
    rw [hvalue] at hrecord
    cases value with
    | obj members => exact ⟨members, rfl⟩
    | null | bool _ | num _ | str _ | arr _ => cases hrecord
  · obtain ⟨value, hvalue⟩ := Json.has_eq_true_iff.1 hhas
    unfold ClassNode at hrecord
    rw [hvalue] at hrecord
    cases value with
    | obj members => exact hrecord.1
    | null | bool _ | num _ | str _ | arr _ => cases hrecord
  · unfold MapNode at hmap
    rw [hvalue] at hmap
    cases value with
    | obj members => exact Or.inr ⟨members, rfl⟩
    | bool b => exact Or.inl ⟨b, rfl⟩
    | null | num _ | str _ | arr _ => cases hmap

/-- The node of an array type's items tells that they have the right shape. -/
theorem ItemsNode.itemsShaped {schema : Json} {path : Reference} {t : NodeId}
    (h : s.ItemsNode schema path t) : schema.ItemsShaped := by
  intro value hvalue
  unfold ItemsNode at h
  rw [hvalue] at h
  cases value with
  | obj members => exact Or.inr (Or.inl ⟨members, rfl⟩)
  | bool b => exact Or.inl ⟨b, rfl⟩
  | arr positions => exact Or.inr (Or.inr ⟨positions, rfl⟩)
  | null | num _ | str _ => cases h

/-- Where two lists are related element by element, each element of the first one has a partner. -/
theorem exists_of_forall₂ {α β : Type} {r : α → β → Prop} {l : List α} {m : List β}
    (h : List.Forall₂ r l m) {a : α} (ha : a ∈ l) : ∃ b ∈ m, r a b := by
  induction h with
  | nil => cases ha
  | cons hr _ ih =>
    rcases List.mem_cons.1 ha with rfl | ha
    · exact ⟨_, List.mem_cons_self, hr⟩
    · obtain ⟨b, hb, hrest⟩ := ih ha
      exact ⟨b, List.mem_cons_of_mem _ hb, hrest⟩

/-- Each type of a schema has a node. -/
theorem TypesNode.typeNode {place : Place} {t? : Option NodeId} (h : s.TypesNode place t?)
    {e : String × Reference} (he : e ∈ place.typePaths) :
    ∃ t, s.TypeNode place.fragment e.1 e.2 t := by
  obtain ⟨nodes, hnodes, -⟩ := h
  obtain ⟨t, -, ht⟩ := exists_of_forall₂ hnodes he
  exact ⟨t, ht⟩

theorem TypeNode.isTypeName {schema : Json} {name : String} {path : Reference} {t : NodeId}
    (h : s.TypeNode schema name path t) : Json.IsTypeName name := by
  unfold TypeNode at h
  by_contra hname
  rw [TypeName.ofText?_eq_none_iff.2 hname] at h
  exact h

/-- What a combinator lists has the right shape if it has a node. -/
theorem AllOfNodes.combinator_shaped {place : Place} {nodes : List NodeId}
    (h : s.AllOfNodes place nodes) {cases : Json}
    (hcases : place.fragment.get? Combinator.allOf.keyword = some cases) :
    ∃ schemas, cases = .arr schemas := by
  unfold AllOfNodes at h
  rw [hcases] at h
  cases cases with
  | arr schemas => exact ⟨schemas, rfl⟩
  | null | bool _ | num _ | str _ | obj _ => cases h

theorem ChoiceNode.combinator_shaped {place : Place} {combinator : Combinator} {t? : Option NodeId}
    (h : s.ChoiceNode place combinator t?) {cases : Json}
    (hcases : place.fragment.get? combinator.keyword = some cases) :
    ∃ schemas, cases = .arr schemas := by
  unfold ChoiceNode at h
  rw [hcases] at h
  cases cases with
  | arr schemas => exact ⟨schemas, rfl⟩
  | null | bool _ | num _ | str _ | obj _ => cases h

/-- Only schemas of the right shape have a node. -/
theorem SchemaNode.schemaShaped {place : Place} {t : NodeId} (h : s.SchemaNode place t) :
    place.fragment.SchemaShaped := by
  obtain ⟨all, one?, any?, types?, hall, hone, hany, hlisted, htypes, -⟩ := h
  have htype : ∀ name ∈ place.fragment.declaredTypes, ∃ path t,
      s.TypeNode place.fragment name path t := by
    intro name hname
    obtain ⟨path, hpath⟩ := place.exists_mem_typePaths hname
    exact ⟨path, htypes.typeNode hpath⟩
  refine ⟨fun combinator cases hcases => ?_, hlisted, fun name hname => ?_, fun hobject => ?_,
    fun harray => ?_⟩
  · cases combinator with
    | allOf => exact hall.combinator_shaped hcases
    | oneOf => exact hone.combinator_shaped hcases
    | anyOf => exact hany.combinator_shaped hcases
  · obtain ⟨path, t, hnode⟩ := htype name hname
    exact hnode.isTypeName
  · obtain ⟨path, t, hnode⟩ := htype "object" hobject
    exact ObjectNode.objectShaped hnode
  · obtain ⟨path, t, items, hitems, -⟩ := htype "array" harray
    exact hitems.itemsShaped

/-! ## The schemas inside -/

/-- A path among some that are bound stands for a node. -/
theorem Binds.exists_of_mem {paths : List Reference} {nodes : List NodeId}
    (h : s.Binds paths nodes) {path : Reference} (hpath : path ∈ paths) :
    ∃ t, s.nodeOf? path = some t :=
  (exists_of_forall₂ h hpath).imp fun _ ht => ht.2

theorem mem_branchPaths {path : Reference} {combinator : Combinator} {schemas : List Json}
    {i : Nat} {schema : Json} (h : schemas[i]? = some schema) :
    path.push (.branch combinator i) ∈ branchPaths path combinator schemas := by
  have hi := (List.getElem?_eq_some_iff.1 h).1
  exact List.mem_map.2 ⟨i, List.mem_range.2 hi, rfl⟩

/-- The schemas under a combinator that has a node have nodes. -/
theorem AllOfNodes.branch_bound {place : Place} {nodes : List NodeId} (h : s.AllOfNodes place nodes)
    {schemas : List Json} (hcases : place.fragment.get? Combinator.allOf.keyword = some (.arr schemas))
    {i : Nat} {schema : Json} (hschema : schemas[i]? = some schema) :
    ∃ n, s.nodeOf? (place.path.push (.branch .allOf i)) = some n := by
  unfold AllOfNodes at h
  rw [hcases] at h
  exact Binds.exists_of_mem h (mem_branchPaths hschema)

theorem ChoiceNode.branch_bound {place : Place} {combinator : Combinator} {t? : Option NodeId}
    (h : s.ChoiceNode place combinator t?) {schemas : List Json}
    (hcases : place.fragment.get? combinator.keyword = some (.arr schemas)) {i : Nat}
    {schema : Json} (hschema : schemas[i]? = some schema) :
    ∃ n, s.nodeOf? (place.path.push (.branch combinator i)) = some n := by
  unfold ChoiceNode at h
  rw [hcases] at h
  obtain ⟨t, nodes, -, hnodes, -⟩ := h
  exact hnodes.exists_of_mem (mem_branchPaths hschema)

/-- The schemas inside one that has a node have nodes. -/
theorem SchemaNode.inner_bound {place inner : Place} {t : NodeId} (h : s.SchemaNode place t)
    (hinner : place.Inner inner) : ∃ n, s.nodeOf? inner.path = some n := by
  obtain ⟨all, one?, any?, types?, hall, hone, hany, hlisted, htypes, -⟩ := h
  cases hinner with
  | @branch combinator schemas i schema hcases hschema =>
    cases combinator with
    | allOf => exact hall.branch_bound hcases hschema
    | oneOf => exact hone.branch_bound hcases hschema
    | anyOf => exact hany.branch_bound hcases hschema
  | @property path members name schema hobject hmembers hmem =>
    obtain ⟨t, -, record?, map?, hrecord, -, -⟩ := htypes.typeNode hobject
    unfold ClassNode at hrecord
    rw [hmembers] at hrecord
    obtain ⟨-, t, properties, -, -, hproperties⟩ := hrecord
    obtain ⟨property, -, -, hbound, -⟩ := exists_of_forall₂ hproperties hmem
    exact ⟨property.target, hbound⟩
  | additional hobject hschema =>
    obtain ⟨t, -, record?, map?, -, hmap, -⟩ := htypes.typeNode hobject
    unfold MapNode at hmap
    rw [hschema] at hmap
    obtain ⟨t, values, -, hvalues, -⟩ := hmap
    exact ⟨values, hvalues⟩
  | items harray hschema hshape =>
    obtain ⟨t, items, hitems, -⟩ := htypes.typeNode harray
    unfold ItemsNode at hitems
    rw [hschema] at hitems
    obtain ⟨b, rfl⟩ | ⟨members, rfl⟩ := hshape
    · exact ⟨items, hitems⟩
    · exact ⟨items, hitems⟩
  | @position path positions i schema harray hpositions hschema =>
    obtain ⟨t, items, hitems, -⟩ := htypes.typeNode harray
    unfold ItemsNode at hitems
    rw [hpositions] at hitems
    obtain ⟨nodes, hnodes, -⟩ := hitems
    refine hnodes.exists_of_mem (List.mem_map.2 ⟨i, ?_, rfl⟩)
    exact List.mem_range.2 (List.getElem?_eq_some_iff.1 hschema).1

end Progress

namespace Corpus

variable {σ : Type} {c : Corpus} {s s' : Progress σ}

/-! ## Nodes of the kinds of schemas -/

theorem describes_iff_of_bool {place : Place} {t : NodeId} {b : Bool}
    (h : place.fragment = .bool b) : c.Describes s place t ↔ s.IsAny t := by
  unfold Describes
  rw [h]

theorem describes_iff_of_reference {place : Place} {t : NodeId} {value : Json}
    (h : place.fragment.get? "$ref" = some value) :
    c.Describes s place t ↔
      ∃ found, c.target? place value = some found ∧ s.nodeOf? found.path = some t := by
  obtain ⟨members, hmembers⟩ := Json.exists_eq_obj_of_get? h
  unfold Describes
  rw [h, hmembers]

theorem describes_iff_of_enum {place : Place} {t : NodeId} {cases : Json}
    (href : place.fragment.get? "$ref" = none) (h : place.fragment.get? "enum" = some cases) :
    c.Describes s place t ↔ s.EnumNode cases t := by
  obtain ⟨members, hmembers⟩ := Json.exists_eq_obj_of_get? h
  unfold Describes
  rw [href, h, hmembers]

theorem describes_iff_of_isSchema {place : Place} {t : NodeId} (h : place.IsSchema) :
    c.Describes s place t ↔ s.SchemaNode place t := by
  obtain ⟨members, hmembers⟩ := h.isObject
  unfold Describes
  rw [h.no_reference, h.no_enum, hmembers]

theorem not_describes_of_none {place : Place} {t : NodeId} (hbool : ∀ b, place.fragment ≠ .bool b)
    (hobj : ∀ members, place.fragment ≠ .obj members) : ¬ c.Describes s place t := by
  unfold Describes
  split
  · next b hb => exact absurd hb (hbool b)
  · next members hmembers => exact absurd hmembers (hobj members)
  · exact fun h => h

/-! ## What follows from a description -/

/-- Building on does not change what has been described. -/
theorem Describes.mono (h : s.Retains s') {place : Place} {t : NodeId}
    (ht : c.Describes s place t) : c.Describes s' place t := by
  rcases place.view with ⟨b, hb⟩ | ⟨value, hvalue⟩ | ⟨cases, href, hcases⟩ | hschema | ⟨hbool, hobj⟩
  · rw [describes_iff_of_bool hb] at ht ⊢
    exact ht.mono h
  · rw [describes_iff_of_reference hvalue] at ht ⊢
    obtain ⟨found, hfound, hbound⟩ := ht
    exact ⟨found, hfound, h.bound _ _ hbound⟩
  · rw [describes_iff_of_enum href hcases] at ht ⊢
    exact ht.mono h
  · rw [describes_iff_of_isSchema hschema] at ht ⊢
    exact ht.mono h
  · exact absurd ht (not_describes_of_none hbool hobj)

/-- Only places of the right shape have a node. -/
theorem Describes.shaped {place : Place} {t : NodeId} (ht : c.Describes s place t)
    (hgrounded : c.Grounded place) : c.Shaped place := by
  rcases place.view with ⟨b, hb⟩ | ⟨value, hvalue⟩ | ⟨cases, href, hcases⟩ | hschema | ⟨hbool, hobj⟩
  · exact shaped_of_bool hb
  · rw [describes_iff_of_reference hvalue] at ht
    obtain ⟨found, hfound, -⟩ := ht
    exact (shaped_iff_of_reference hvalue).2 ⟨⟨found, hfound⟩, hgrounded⟩
  · rw [describes_iff_of_enum href hcases] at ht
    obtain ⟨items, hitems, hlisted, -⟩ := ht
    exact (shaped_iff_of_enum href hcases).2 ⟨items, hitems, hlisted⟩
  · rw [describes_iff_of_isSchema hschema] at ht
    exact (shaped_iff_of_isSchema hschema).2 ht.schemaShaped
  · exact absurd ht (not_describes_of_none hbool hobj)

/-- All that is met from a place that has a node is bound. -/
theorem Describes.step_bound {place : Place} (hplace : c.Located place) {t : NodeId}
    (ht : c.Describes s place t) {next : Reference} (hstep : c.Step place.path next) :
    ∃ n, s.nodeOf? next = some n := by
  obtain ⟨other, hother, hnext⟩ := hstep
  rw [located_iff.1 hplace] at hother
  cases hother
  rcases hnext with ⟨found, ⟨value, hvalue, hfound⟩, rfl⟩ | ⟨hschema, inner, hinner, rfl⟩
  · rw [describes_iff_of_reference hvalue] at ht
    obtain ⟨found', hfound', hbound⟩ := ht
    rw [hfound] at hfound'
    cases hfound'
    exact ⟨t, hbound⟩
  · rw [describes_iff_of_isSchema hschema] at ht
    exact ht.inner_bound hinner

end Corpus

end ShapeGraph
