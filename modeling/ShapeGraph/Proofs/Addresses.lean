import Mathlib.Logic.Relation
import ShapeGraph.Proofs.Paths
import ShapeGraph.Reference.Parser

/-!
# Clean addresses

An address is clean if all its components are names.  From a document at a clean address, relative
addresses only lead to clean ones again, and so to files below the base directory, whatever they go up on
the way.  It does not matter how they are spelled.

## Main definitions

* `Address.IsClean` — all components of the address are names.
* `Address.Respells` — two lists of components differ by components that lead nowhere.
* `FileTree.placeOf` — where a path leads, if it leads anywhere.

## Main results

* `Address.isClean_join` — a relative address leads from a clean address to a clean one.
* `Address.Respells.foldl_descend` — components that lead nowhere make no difference.
* `FileTree.eq_placeOf_of_walk` — a walk can only end in one place.
* `Address.join_clean` — relative addresses have one normal form, which stays below the base.

## Design

To go up from the top is to stay there, so a component that goes up is not the opposite of a name.  But
going down by a name and up again leads back from everywhere, and this is all that is needed: it is the
directory that is kept, and not the components that lead there.
-/

set_option autoImplicit false

namespace ShapeGraph

namespace Address

variable {directory : List String} {component : String}

/-! ## Names and clean addresses -/

/-- The component is the name of something in a directory. -/
structure IsName (component : String) : Prop where
  ne_empty : component ≠ ""
  ne_dot : component ≠ "."
  ne_dots : component ≠ ".."
  slash_free : '/' ∉ component.toList

instance (component : String) : Decidable (IsName component) :=
  decidable_of_iff
    (component ≠ "" ∧ component ≠ "." ∧ component ≠ ".." ∧ '/' ∉ component.toList)
    ⟨fun ⟨hempty, hdot, hdots, hslash⟩ => ⟨hempty, hdot, hdots, hslash⟩,
      fun h => ⟨h.ne_empty, h.ne_dot, h.ne_dots, h.slash_free⟩⟩

/-- All components of the address are names; there may be none. -/
def IsClean (address : String) : Prop :=
  ∃ names : List String, (∀ name ∈ names, IsName name) ∧ address = joinSegments '/' names

/-- Cutting an address that is glued from components gives these, except that there is an empty component
if there were none. -/
theorem segments_glued {components : List String} (h : ∀ c ∈ components, '/' ∉ c.toList) :
    segments '/' (joinSegments '/' components) = components ∨
      components = [] ∧ segments '/' (joinSegments '/' components) = [""] := by
  by_cases hne : components = []
  · subst hne
    exact Or.inr ⟨rfl, rfl⟩
  · exact Or.inl (segments_joinSegments hne h)

/-- The directory of a document at a clean address is given by names. -/
theorem IsClean.isName_of_mem_dropLast {base : String} (h : IsClean base) {name : String}
    (hname : name ∈ (segments '/' base).dropLast) : IsName name := by
  obtain ⟨names, hnames, rfl⟩ := h
  rcases segments_glued fun n hn => (hnames n hn).slash_free with heq | ⟨-, heq⟩
  · rw [heq] at hname
    exact hnames name (List.dropLast_subset _ hname)
  · rw [heq] at hname
    cases hname

/-! ## Walking through directories -/

/-- Components without slashes lead from names to names. -/
theorem isName_of_mem_descend (hdirectory : ∀ name ∈ directory, IsName name)
    (hcomponent : '/' ∉ component.toList) {name : String} (h : name ∈ descend directory component) :
    IsName name := by
  unfold descend at h
  by_cases hdots : component = ".."
  · rw [if_pos hdots] at h
    exact hdirectory name (List.dropLast_subset _ h)
  · rw [if_neg hdots] at h
    by_cases hstill : component = "." ∨ component = ""
    · rw [if_pos hstill] at h
      exact hdirectory name h
    · rw [if_neg hstill] at h
      rcases List.mem_append.1 h with h | h
      · exact hdirectory name h
      · rw [List.mem_singleton.1 h]
        exact ⟨fun hempty => hstill (Or.inr hempty), fun hdot => hstill (Or.inl hdot), hdots,
          hcomponent⟩

theorem isName_of_mem_foldl_descend {components : List String}
    (hdirectory : ∀ name ∈ directory, IsName name) (hcomponents : ∀ c ∈ components, '/' ∉ c.toList) :
    ∀ name ∈ components.foldl descend directory, IsName name := by
  induction components generalizing directory with
  | nil => exact hdirectory
  | cons component rest ih =>
    rw [List.forall_mem_cons] at hcomponents
    exact ih (fun _ => isName_of_mem_descend hdirectory hcomponents.1) hcomponents.2

/-- Names lead down. -/
theorem foldl_descend_names {names : List String} (h : ∀ name ∈ names, IsName name)
    (directory : List String) : names.foldl descend directory = directory ++ names := by
  induction names generalizing directory with
  | nil => rw [List.foldl_nil, List.append_nil]
  | cons name rest ih =>
    rw [List.forall_mem_cons] at h
    obtain ⟨hname, hrest⟩ := h
    have hdown : descend directory name = directory ++ [name] := by
      unfold descend
      rw [if_neg hname.ne_dots, if_neg (not_or.2 ⟨hname.ne_dot, hname.ne_empty⟩)]
    rw [List.foldl_cons, hdown, ih hrest, List.append_assoc, List.singleton_append]

/-- From a clean address, a relative one leads to a clean one. -/
theorem isClean_join {base relative : String} (hbase : IsClean base)
    (hrelative : isStandalone relative = false) : IsClean (join base relative) := by
  have hnames : ∀ name ∈ (segments '/' relative).foldl descend (segments '/' base).dropLast,
      IsName name :=
    isName_of_mem_foldl_descend (fun name => hbase.isName_of_mem_dropLast)
      fun c => slash_not_mem_of_mem_segments
  unfold join
  rw [if_neg (Bool.eq_false_iff.1 hrelative)]
  exact ⟨_, fun name hname => hnames name (List.mem_of_mem_filter hname), rfl⟩

/-! ## Chains of references -/

/-- Whether the text of a reference starts with an address that means the same from everywhere. -/
def leadsAway (text : String) : Bool :=
  match splitFirst '#' text with
  | some (address, _) => isStandalone address
  | none => false

theorem isClean_parse {base text : String} (hbase : IsClean base) (htext : leadsAway text = false) :
    IsClean (Reference.parse base text).address := by
  unfold leadsAway at htext
  unfold Reference.parse
  cases hsplit : splitFirst '#' text with
  | none => exact hbase
  | some parts =>
    rw [hsplit] at htext
    by_cases hempty : parts.1 = ""
    · simpa only [hempty, if_true] using hbase
    · simpa only [hempty, if_false] using isClean_join hbase htext

/-- From a clean address, a chain of references leads to a clean one, unless one leads away. -/
theorem isClean_foldl_parse {base : String} {texts : List String} (hbase : IsClean base)
    (htexts : ∀ text ∈ texts, leadsAway text = false) :
    IsClean (texts.foldl (fun address text => (Reference.parse address text).address) base) := by
  induction texts generalizing base with
  | nil => exact hbase
  | cons text rest ih =>
    rw [List.forall_mem_cons] at htexts
    exact ih (isClean_parse hbase htexts.1) htexts.2

/-! ## Spellings -/

/-- The components lead back to where they start from. -/
inductive IsIdle : List String → Prop
  | dot : IsIdle ["."]
  | empty : IsIdle [""]
  | back {name : String} (h : IsName name) : IsIdle [name, ".."]

/-- Two lists of components differ by a component that leads nowhere, or by a pair that leads back. -/
inductive Inserts : List String → List String → Prop
  | intro (before after : List String) {idle : List String} (h : IsIdle idle) :
      Inserts (before ++ after) (before ++ idle ++ after)

/-- One list of components comes from another one by putting in and leaving out components that lead
nowhere. -/
def Respells : List String → List String → Prop := Relation.EqvGen Inserts

theorem IsIdle.foldl_descend {idle : List String} (h : IsIdle idle) (directory : List String) :
    idle.foldl descend directory = directory := by
  cases h with
  | dot | empty => rfl
  | @back name h =>
    show descend (descend directory name) ".." = directory
    have hdown : descend directory name = directory ++ [name] :=
      foldl_descend_names (List.forall_mem_singleton.2 h) directory
    rw [hdown]
    exact List.dropLast_concat

/-- Components that lead nowhere make no difference, wherever they stand. -/
theorem Respells.foldl_descend {components other : List String} (h : Respells components other)
    (directory : List String) :
    components.foldl descend directory = other.foldl descend directory := by
  induction h with
  | rel components other h =>
    cases h with
    | intro before after hidle =>
      rw [List.foldl_append, List.foldl_append, List.foldl_append, hidle.foldl_descend]
  | refl => rfl
  | symm _ _ _ ih => exact ih.symm
  | trans _ _ _ _ _ ih ih' => exact ih.trans ih'

/-- What a relative address means, by its components. -/
theorem join_joinSegments (base : String) {components : List String}
    (hcomponents : ∀ c ∈ components, '/' ∉ c.toList)
    (h : isStandalone (joinSegments '/' components) = false) :
    join base (joinSegments '/' components) =
      joinSegments '/' ((components.foldl descend (segments '/' base).dropLast).filter (· ≠ "")) := by
  unfold join
  rw [if_neg (Bool.eq_false_iff.1 h)]
  rcases segments_glued hcomponents with heq | ⟨rfl, heq⟩
  · rw [heq]
  · rw [heq]
    rfl

end Address

/-! ## Files at clean addresses -/

namespace FileTree

variable {tree : FileTree} {names found : List String} {path relative : String}

/-- Where a path leads, if it leads anywhere. -/
def placeOf (tree : FileTree) (path : String) : List String :=
  (segments '/' path).foldl Address.descend (tree.startOf path)

/-- If a component can be walked through, there is only one way. -/
theorem eq_of_descend {component : String} (h : tree.descend names component = .ok found) :
    found = Address.descend names component := by
  unfold descend at h
  unfold Address.descend
  split at h
  · cases h
  · by_cases hdots : component = ".."
    · rw [if_pos hdots] at h ⊢
      exact (Except.ok.inj h).symm
    · rw [if_neg hdots] at h ⊢
      by_cases hstill : component = "." ∨ component = ""
      · rw [if_pos hstill] at h ⊢
        exact (Except.ok.inj h).symm
      · rw [if_neg hstill] at h ⊢
        split at h
        · cases h
        · exact (Except.ok.inj h).symm
  · cases h

theorem eq_of_foldlM_descend {components : List String}
    (h : components.foldlM tree.descend names = .ok found) :
    found = components.foldl Address.descend names := by
  induction components generalizing names with
  | nil => exact (Except.ok.inj h).symm
  | cons component rest ih =>
    rw [List.foldlM_cons] at h
    obtain ⟨next, hnext, hrest⟩ := exists_of_bind_eq_ok h
    rw [List.foldl_cons, ← eq_of_descend hnext]
    exact ih hrest

/-- A walk can only end in one place. -/
theorem eq_placeOf_of_walk (h : tree.walk path = .ok names) : names = tree.placeOf path := by
  obtain ⟨-, -, hnames⟩ := exists_of_bind_eq_ok h
  exact eq_of_foldlM_descend hnames

/-- Only components that move count for where a path leads. -/
theorem foldl_descend_filter (components names : List String) :
    (components.filter moves).foldl Address.descend names =
      components.foldl Address.descend names := by
  induction components generalizing names with
  | nil => rfl
  | cons component rest ih =>
    cases hmoves : moves component with
    | true => rw [List.filter_cons_of_pos hmoves, List.foldl_cons, List.foldl_cons, ih]
    | false =>
      have hstill : Address.descend names component = names := by
        rcases eq_of_not_moves hmoves with rfl | rfl <;> rfl
      rw [List.filter_cons_of_neg (by simp [hmoves]), ih, List.foldl_cons, hstill]

/-- A path below a directory leads on from where the directory is. -/
theorem placeOf_joinPath (tree : FileTree) (h : isAbsolute relative = false) (directory : String) :
    tree.placeOf (joinPath directory relative) =
      (segments '/' relative).foldl Address.descend (tree.placeOf directory) := by
  have hstart : tree.startOf (joinPath directory relative) = tree.startOf directory := by
    unfold startOf
    rw [isAbsolute_joinPath h]
  obtain ⟨before, hsegments, hbefore, -⟩ := exists_segments_joinPath h directory
  have hdirectory : before.foldl Address.descend (tree.startOf directory) =
      (segments '/' directory).foldl Address.descend (tree.startOf directory) := by
    rw [← foldl_descend_filter before, hbefore]
    exact foldl_descend_filter _ _
  unfold placeOf
  rw [hstart, hsegments, List.foldl_append, hdirectory]

/-- What a clean address leads to is below the directory, by the names that the address consists of. -/
theorem exists_below_of_walk {directory address : String} (haddress : Address.IsClean address)
    (h : tree.walk (joinPath directory address) = .ok names) :
    ∃ below : List String, (∀ name ∈ below, Address.IsName name) ∧
      names = tree.placeOf directory ++ below := by
  obtain ⟨below, hbelow, rfl⟩ := haddress
  have hslashes : ∀ name ∈ below, '/' ∉ name.toList := fun name hname => (hbelow name hname).slash_free
  have hrelative : isAbsolute (joinSegments '/' below) = false := by
    rw [Bool.eq_false_iff]
    intro habsolute
    have hmem := empty_mem_segments_of_isAbsolute habsolute
    rcases Address.segments_glued hslashes with heq | ⟨rfl, -⟩
    · rw [heq] at hmem
      exact (hbelow "" hmem).ne_empty rfl
    · cases habsolute
  refine ⟨below, hbelow, ?_⟩
  rw [eq_placeOf_of_walk h, placeOf_joinPath tree hrelative,
    ← Address.foldl_descend_names hbelow (tree.placeOf directory)]
  rcases Address.segments_glued hslashes with heq | ⟨rfl, heq⟩
  · rw [heq]
  · rw [heq]
    rfl

end FileTree

namespace Address

/-- Relative addresses have one normal form, which stays below the base.  From a clean address, each of them
leads to a clean one.  So does a chain of references, and the file that is found at its end is below the
directory of the documents.  Two spellings of a relative address that differ by components that lead
nowhere mean the same. -/
theorem join_clean :
    (∀ base relative : String, IsClean base → isStandalone relative = false →
      IsClean (join base relative)) ∧
    (∀ (base : String) (texts : List String), IsClean base →
      (∀ text ∈ texts, leadsAway text = false) →
      let address := texts.foldl (fun address text => (Reference.parse address text).address) base
      IsClean address ∧ ∀ (tree : FileTree) (directory : String) (names : List String),
        tree.walk (FileTree.joinPath directory address) = .ok names →
          tree.placeOf directory <+: names) ∧
    ∀ (base : String) (components other : List String), Respells components other →
      (∀ c ∈ components, '/' ∉ c.toList) → (∀ c ∈ other, '/' ∉ c.toList) →
      isStandalone (joinSegments '/' components) = false →
      isStandalone (joinSegments '/' other) = false →
      join base (joinSegments '/' components) = join base (joinSegments '/' other) := by
  refine ⟨fun base relative => isClean_join, ?_, ?_⟩
  · intro base texts hbase htexts address
    have haddress : IsClean address := isClean_foldl_parse hbase htexts
    refine ⟨haddress, fun tree directory names hnames => ?_⟩
    obtain ⟨below, -, heq⟩ := FileTree.exists_below_of_walk haddress hnames
    exact ⟨below, heq.symm⟩
  · intro base components other hrespells hcomponents hother hrelative hrelative'
    rw [join_joinSegments base hcomponents hrelative, join_joinSegments base hother hrelative',
      hrespells.foldl_descend]

/-- Going up twice from a directory below the base leads to a document in the base directory, also when the
way there goes through a directory and back. -/
theorem join_clean_person :
    let texts := ["../owners/list.json#/definitions/Owner", "../../person.json#"]
    let tree : FileTree := ⟨[], [(["srv"], .directory), (["srv", "person.json"], .text "{}")]⟩
    IsClean "pets/cat.json" ∧
      IsClean (join "pets/cat.json" "../../person.json") ∧
      tree.walk (FileTree.joinPath "/srv" (texts.foldl
        (fun address text => (Reference.parse address text).address) "pets/cat.json")) =
          .ok ["srv", "person.json"] ∧
      tree.placeOf "/srv" <+: ["srv", "person.json"] ∧
      join "pets/cat.json" "../../person.json" = join "pets/cat.json" "../x/../../person.json" := by
  intro texts tree
  have hclean : IsClean "pets/cat.json" := by
    refine ⟨["pets", "cat.json"], ?_, by decide +kernel⟩
    intro name hname
    simp only [List.mem_cons, List.not_mem_nil, or_false] at hname
    rcases hname with rfl | rfl <;> exact ⟨by decide, by decide, by decide, by decide⟩
  have hwalk : tree.walk (FileTree.joinPath "/srv" (texts.foldl
      (fun address text => (Reference.parse address text).address) "pets/cat.json")) =
        .ok ["srv", "person.json"] := by decide +kernel
  have hx : IsName "x" := ⟨by decide, by decide, by decide, by decide⟩
  refine ⟨hclean, join_clean.1 _ _ hclean (by decide +kernel), hwalk,
    (join_clean.2.1 _ texts hclean (by decide +kernel)).2 tree "/srv" _ hwalk, ?_⟩
  exact join_clean.2.2 "pets/cat.json" ["..", "..", "person.json"]
    ["..", "x", "..", "..", "person.json"]
    (.rel _ _ (.intro [".."] ["..", "person.json"] (.back hx))) (by decide) (by decide)
    (by decide +kernel) (by decide +kernel)

end Address

end ShapeGraph
