import ShapeGraph.Proofs.Walks

/-!
# Resolution is canonical

The path of the place that a reference leads to is a reference itself.  It has one step to the root,
which comes first, and it leads to the same place again, so that a type may be remembered under it.

## Main definitions

* `Place.Canonical` — the path of a place leads to the place from the root of its document.

## Main results

* `Place.lookup_append_eq_ok_iff` — a walk along two runs of steps is a walk along one after the other.
* `Place.Canonical.lookup` — references lead from canonical places to canonical places.
* `Place.lookup_canonical` — how the place reached depends on where the walk starts and on its steps.

## Design

The target as a whole only occurs in the failures of a walk, and its address in the path after a step to
the root.  So the steps of one reference may be taken on the way to another one of that address, as long
as they succeed.
-/

set_option autoImplicit false

namespace ShapeGraph

namespace Place

/-! ## Walks one after the other -/

/-- A part that is found is found on the way to any target. -/
theorem step_of_step {target path other : Reference} {value part : Json} {key : String}
    (h : step target path value key = .ok part) : step other path value key = .ok part := by
  cases value with
  | arr items =>
    simp only [step] at h ⊢
    cases hindex : index? key with
    | none =>
      rw [hindex] at h
      cases h
    | some i =>
      cases hitem : items[i]? with
      | none => simp only [hindex, hitem] at h; cases h
      | some item => simpa only [hindex, hitem] using h
  | obj members =>
    simp only [step] at h ⊢
    cases hmember : members.lookup key with
    | none => simp only [hmember] at h; cases h
    | some member => simpa only [hmember] using h
  | null | bool _ | num _ | str _ => cases h

/-- A step that succeeds does so on the way to every target with the same address. -/
theorem walk_of_walk {target other : Reference} {place reached : Place} {element : PathElement}
    (h : walk target place element = .ok reached) (haddress : other.address = target.address) :
    walk other place element = .ok reached := by
  cases element with
  | root =>
    rw [← h]
    simp only [walk, haddress]
  | definition name =>
    simp only [walk] at h ⊢
    split at h
    · exact h
    · cases h
  | key key =>
    obtain ⟨part, hpart, h⟩ := exists_of_bind_eq_ok h
    simp only [walk, step_of_step hpart]
    exact h
  | branch combinator i =>
    obtain ⟨cases, hcases, h⟩ := exists_of_bind_eq_ok h
    obtain ⟨case, hcase, h⟩ := exists_of_bind_eq_ok h
    simp only [walk, step_of_step hcases]
    change (step other place.path cases (toString i) >>= _) = _
    rw [step_of_step hcase]
    exact h
  | typeBranch _ | object => cases h

/-- Steps that succeed do so on the way to every target with the same address. -/
theorem foldlM_walk_of_foldlM_walk {target other : Reference} {elements : List PathElement}
    {place reached : Place} (h : elements.foldlM (walk target) place = .ok reached)
    (haddress : other.address = target.address) :
    elements.foldlM (walk other) place = .ok reached := by
  induction elements generalizing place with
  | nil => exact h
  | cons element rest ih =>
    rw [List.foldlM_cons] at h ⊢
    obtain ⟨next, hnext, hrest⟩ := exists_of_bind_eq_ok h
    rw [walk_of_walk hnext haddress]
    exact ih hrest

/-- A walk along two runs of steps is a walk along the one and then along the other. -/
theorem lookup_append_eq_ok_iff {place reached : Place} {address : String}
    {first second : List PathElement} :
    place.lookup ⟨address, first ++ second⟩ = .ok reached ↔
      ∃ middle, place.lookup ⟨address, first⟩ = .ok middle ∧
        middle.lookup ⟨address, second⟩ = .ok reached := by
  unfold lookup
  rw [List.foldlM_append]
  constructor
  · intro h
    obtain ⟨middle, hfirst, hsecond⟩ := exists_of_bind_eq_ok h
    exact ⟨middle, foldlM_walk_of_foldlM_walk hfirst rfl, foldlM_walk_of_foldlM_walk hsecond rfl⟩
  · rintro ⟨middle, hfirst, hsecond⟩
    have hthere : first.foldlM (walk ⟨address, first ++ second⟩) place = .ok middle :=
      foldlM_walk_of_foldlM_walk hfirst rfl
    rw [hthere]
    exact foldlM_walk_of_foldlM_walk hsecond rfl

/-- A walk that begins at the root does not depend on where it is found. -/
theorem lookup_root_cons (place : Place) (address : String) (rest : List PathElement) :
    place.lookup ⟨address, .root :: rest⟩ =
      (ofDocument address place.document).lookup ⟨address, .root :: rest⟩ :=
  rfl

/-! ## Canonical places -/

/-- The path of the place has one step to the root, which comes first, and leads to the place from the
root of its document. -/
structure Canonical (place : Place) : Prop where
  root_first : ∃ rest, place.path.elements = .root :: rest ∧ .root ∉ rest
  resolves : (ofDocument place.path.address place.document).lookup place.path = .ok place

/-- The root of a document is canonical. -/
theorem canonical_ofDocument (address : String) (document : Json) :
    (ofDocument address document).Canonical :=
  ⟨⟨[], rfl, List.not_mem_nil⟩, rfl⟩

namespace Canonical

variable {place reached : Place} {target : Reference}

/-- A step from a canonical place inside its document leads to a canonical place. -/
theorem walk (h : place.Canonical) {element : PathElement}
    (hwalk : Place.walk target place element = .ok reached)
    (haddress : target.address = place.path.address) : reached.Canonical := by
  have hspec := follow?_of_walk hwalk
  by_cases helement : element = .root
  · subst helement
    rw [hspec.eq_ofDocument]
    exact canonical_ofDocument target.address place.document
  · obtain ⟨rest, hrest, hroot⟩ := h.root_first
    have hreached := hspec.eq_push helement
    have hpath : reached.path = place.path.push element := by rw [hreached]
    have hdocument : reached.document = place.document := hspec.document_eq
    refine ⟨⟨rest ++ [element], ?_, ?_⟩, ?_⟩
    · rw [hpath, Reference.push, hrest]
      rfl
    · simp [hroot, Ne.symm helement]
    · rw [hpath, hdocument]
      refine lookup_append_eq_ok_iff.2 ⟨place, h.resolves, ?_⟩
      change Place.walk _ place element >>= pure = _
      rw [bind_pure]
      exact walk_of_walk hwalk haddress.symm

/-- A reference inside one document leads from a canonical place to a canonical place. -/
theorem lookup (h : place.Canonical) (hlookup : place.lookup target = .ok reached)
    (haddress : target.address = place.path.address) :
    reached.Canonical ∧ reached.document = place.document ∧
      reached.path.address = place.path.address := by
  unfold Place.lookup at hlookup
  generalize target.elements = elements at hlookup
  induction elements generalizing place with
  | nil =>
    cases hlookup
    exact ⟨h, rfl, rfl⟩
  | cons element rest ih =>
    rw [List.foldlM_cons] at hlookup
    obtain ⟨next, hnext, hrest⟩ := exists_of_bind_eq_ok hlookup
    have hspec := follow?_of_walk hnext
    have hnextAddress : next.path.address = place.path.address := by
      rw [hspec.path_eq]
      split
      · exact haddress
      · rfl
    obtain ⟨hcanonical, hdocument, hpath⟩ :=
      ih (h.walk hnext haddress) (haddress.trans hnextAddress.symm) hrest
    exact ⟨hcanonical, hdocument.trans hspec.document_eq, hpath.trans hnextAddress⟩

end Canonical

/-- Without a step to the root, the steps are added to the path. -/
theorem path_of_lookup_of_root_not_mem {place reached : Place} {target : Reference}
    (hroot : .root ∉ target.elements) (h : place.lookup target = .ok reached) :
    reached.path = ⟨place.path.address, place.path.elements ++ target.elements⟩ := by
  unfold lookup at h
  generalize target.elements = elements at hroot h
  induction elements generalizing place with
  | nil =>
    cases h
    rw [List.append_nil]
  | cons element rest ih =>
    rw [List.foldlM_cons] at h
    obtain ⟨next, hnext, hrest⟩ := exists_of_bind_eq_ok h
    obtain ⟨helement, hroot⟩ := not_or.1 (mt List.mem_cons.2 hroot)
    rw [ih hroot hrest, (follow?_of_walk hnext).path_eq, if_neg (Ne.symm helement)]
    simp [Reference.push]

/-- Once it comes to the root, a walk that succeeds goes on as if it had begun there. -/
theorem lookup_restart {place reached : Place} {address : String} {before after : List PathElement}
    (h : place.lookup ⟨address, before ++ .root :: after⟩ = .ok reached) :
    (ofDocument address place.document).lookup ⟨address, .root :: after⟩ = .ok reached := by
  obtain ⟨middle, hbefore, hafter⟩ := lookup_append_eq_ok_iff.1 h
  have hdocument : middle.document = place.document :=
    lookup_induction (motive := fun p => p.document = place.document) hbefore rfl
      fun p q element _ hp hspec => hspec.document_eq.trans hp
  rwa [lookup_root_cons, hdocument] at hafter

/-! ## Main result -/

/-- Resolution is canonical and compositional.

* From a place to which its own path leads from the root of the document, a reference inside the
  document leads to a canonical place.  A walk from the root along that path and then along the
  reference leads to the same place.  A reference that begins at the root and does not return to it is
  the path of the place that it leads to.
* Wherever a walk that succeeds begins and whatever its steps are up to one that leads to the root, the
  steps from there on lead to the same place from anywhere in the document. -/
theorem lookup_canonical :
    (∀ (document fragment : Json) (path target : Reference) (reached : Place),
      (ofDocument path.address document).lookup path = .ok ⟨document, fragment, path⟩ →
      target.address = path.address → lookup ⟨document, fragment, path⟩ target = .ok reached →
        (reached.document = document ∧ reached.path.address = path.address ∧ reached.Canonical) ∧
        (ofDocument path.address document).lookup
            ⟨path.address, path.elements ++ target.elements⟩ = .ok reached ∧
        ∀ rest, target.elements = .root :: rest → .root ∉ rest → reached.path = target) ∧
    ∀ (place reached : Place) (address : String) (before after : List PathElement),
      place.lookup ⟨address, before ++ .root :: after⟩ = .ok reached →
        ∀ other : Place, other.document = place.document →
          other.lookup ⟨address, .root :: after⟩ = .ok reached ∧
            ∀ (before' : List PathElement) (reached' : Place),
              other.lookup ⟨address, before' ++ .root :: after⟩ = .ok reached' →
                reached' = reached := by
  constructor
  · intro document fragment path target reached hplace haddress h
    have hcanonical : Canonical ⟨document, fragment, path⟩ :=
      ((canonical_ofDocument path.address document).lookup hplace rfl).1
    obtain ⟨hreached, hdocument, hpath⟩ := hcanonical.lookup h haddress
    refine ⟨⟨hdocument, hpath, hreached⟩, ?_, fun rest htarget hroot => ?_⟩
    · exact lookup_append_eq_ok_iff.2 ⟨_, hplace, foldlM_walk_of_foldlM_walk h haddress.symm⟩
    · obtain ⟨address, elements⟩ := target
      obtain rfl : elements = .root :: rest := htarget
      have hfrom : (ofDocument address document).lookup ⟨address, rest⟩ = .ok reached :=
        foldlM_walk_of_foldlM_walk h rfl
      exact path_of_lookup_of_root_not_mem hroot hfrom
  · intro place reached address before after h other hother
    have hreached := lookup_restart h
    rw [← hother] at hreached
    refine ⟨hreached, fun before' reached' h' => ?_⟩
    rw [lookup_restart h'] at hreached
    exact Except.ok.inj hreached

/-- A definition with a list of positions. -/
def petSchema : Json := .obj [("properties", .obj [("tags", .obj [("items", .arr [
  .obj [("type", .str "string")], .obj [("type", .str "integer")]])])])]

/-- The definition in its document. -/
def petPlace : Place where
  document := .obj [("definitions", .obj [("Pet", petSchema)])]
  fragment := petSchema
  path := ⟨"pets.json", [.root, .definition "Pet"]⟩

/-- One of the positions. -/
def tagPlace : Place where
  document := petPlace.document
  fragment := .obj [("type", .str "integer")]
  path := ⟨"pets.json", [.root, .definition "Pet", .key "properties", .key "tags", .key "items",
    .key "1"]⟩

/-- A relative reference leads from the definition to one of the positions, and the path of the position
leads there from anywhere in the document. -/
theorem lookup_canonical_pet :
    petPlace.lookup (.parse "pets.json" "properties/tags/items/1") = .ok tagPlace ∧
      tagPlace.Canonical ∧
        ∀ other : Place, other.document = petPlace.document →
          other.lookup tagPlace.path = .ok tagPlace := by
  have hplace : (ofDocument "pets.json" petPlace.document).lookup petPlace.path = .ok petPlace := rfl
  have hreached : petPlace.lookup (.parse "pets.json" "properties/tags/items/1") = .ok tagPlace := rfl
  obtain ⟨hcanonical, hrestarts⟩ := lookup_canonical
  obtain ⟨⟨-, -, hreaches⟩, -, -⟩ :=
    hcanonical _ _ petPlace.path (.parse "pets.json" "properties/tags/items/1") _ hplace rfl hreached
  refine ⟨hreached, hreaches, fun other hother => ?_⟩
  exact (hrestarts _ _ _ [] _ hreaches.resolves other hother).1

end Place

end ShapeGraph
