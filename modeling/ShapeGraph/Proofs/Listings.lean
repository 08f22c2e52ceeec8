import ShapeGraph.Proofs.Addresses
import ShapeGraph.Proofs.Fetching

/-!
# Addresses of files in a directory

A file below a directory is addressed by the components of its path after those of the base directory if its
path starts with these, and else by all of them.  Either way the address leads, from the base directory, to
what is found by the same names below one directory: below the directory itself in the first case, and below
the directory as its path reads from the base directory in the second.

## Main definitions

* `FileTree.seenFrom` — the directory below which the addresses of files lead.
* `FileTree.LeadsBelow` — a path that leads below a directory by some names.
* `FileTree.AtOrBelow` — one directory is another one or below it.

## Main results

* `FileTree.leadsBelow_address` — addresses lead below the directory as it is seen from the base directory.
* `FileTree.LeadsBelow.walk_eq` — where a path that leads below a directory leads.
* `FileTree.AtOrBelow.prefix_of_append` — the base directory does not stand below the directory.

## Design

Two paths may lead to one directory.  So whether it is at or below another one is said of the places to which
the paths lead, and what its files are addressed by, of the components of the paths.
-/

set_option autoImplicit false

namespace ShapeGraph

theorem Address.IsName.isAbsolute_eq_false {name : String} (h : Address.IsName name) :
    FileTree.isAbsolute name = false := by
  rw [Bool.eq_false_iff]
  intro habsolute
  exact h.slash_free (List.mem_of_mem_head? (FileTree.isAbsolute_iff.1 habsolute))

theorem Address.IsName.moves {name : String} (h : Address.IsName name) :
    FileTree.moves name = true := by
  simp [FileTree.moves, h.ne_empty, h.ne_dot]

namespace FileTree

open Address

variable {tree : FileTree} {base directory path : String} {names place : List String}

/-! ## Components -/

/-- A list of components that move is glued to a relative path, which has them again. -/
theorem glued_relative {components : List String} (hne : components ≠ [])
    (h : ∀ component ∈ components, moves component = true ∧ '/' ∉ component.toList) :
    segments '/' (joinSegments '/' components) = components ∧
      isAbsolute (joinSegments '/' components) = false ∧
        moving (joinSegments '/' components) = components := by
  have hsegments := segments_joinSegments hne fun component hmem => (h component hmem).2
  refine ⟨hsegments, ?_, ?_⟩
  · rw [Bool.eq_false_iff]
    intro habsolute
    have hmem := empty_mem_segments_of_isAbsolute habsolute
    rw [hsegments] at hmem
    cases (h "" hmem).1
  · unfold moving
    rw [hsegments, List.filter_eq_self]
    exact fun component hmem => (h component hmem).1

/-- Names in a row are one path. -/
theorem foldl_joinPath_names (hne : names ≠ []) (hnames : ∀ name ∈ names, IsName name)
    (directory : String) :
    names.foldl joinPath directory = joinPath directory (joinSegments '/' names) := by
  induction names generalizing directory with
  | nil => exact absurd rfl hne
  | cons name rest ih =>
    obtain ⟨hname, hrest⟩ := List.forall_mem_cons.1 hnames
    cases rest with
    | nil =>
      rw [List.foldl_cons, List.foldl_nil, ← segments_of_slash_free hname.slash_free,
        joinSegments_segments]
    | cons next others =>
      have hlater := ih (List.cons_ne_nil next others) hrest
      obtain ⟨-, hrelative, -⟩ := glued_relative (List.cons_ne_nil next others)
        fun other hother => ⟨(hrest other hother).moves, (hrest other hother).slash_free⟩
      have hfront : front name = name ++ "/" := by
        refine if_neg fun h => h.elim hname.ne_empty fun hlast => ?_
        exact hname.slash_free (List.mem_of_getLast? hlast)
      rw [List.foldl_cons, hlater, joinPath_joinPath hname.isAbsolute_eq_false hrelative,
        joinPath_of_relative hrelative name, hfront,
        ← joinSegments_cons name (List.cons_ne_nil next others)]

/-- A component that moves is neither the root nor a dot. -/
theorem ne_of_mem_moving {component : String} (h : component ∈ moving path) :
    component ≠ "/" ∧ component ≠ "." := by
  constructor
  · rintro rfl
    exact slash_not_mem_of_mem_segments (List.mem_filter.1 h).1 (by decide)
  · rintro rfl
    cases moves_of_mem_moving h

/-- A path that starts neither at the root nor with a dot starts with a component that moves. -/
theorem moving_ne_nil (hne : path ≠ "") (h : anchor path = []) : moving path ≠ [] := by
  intro hnone
  have hstill : ∀ component ∈ segments '/' path, component = "" ∨ component = "." := by
    intro component hmem
    refine eq_of_not_moves (eq_false_of_ne_true fun hmoves => ?_)
    exact List.ne_nil_of_mem (List.mem_filter.2 ⟨hmem, hmoves⟩) hnone
  have hrelative : isAbsolute path ≠ true := by
    intro habsolute
    unfold anchor at h
    rw [if_pos habsolute] at h
    cases h
  unfold anchor at h
  rw [if_neg hrelative] at h
  obtain ⟨first, rest, hsegments⟩ := List.exists_cons_of_ne_nil (segments_ne_nil '/' path)
  rw [hsegments, List.head?_cons] at h
  rcases hstill first (hsegments ▸ List.mem_cons_self) with rfl | rfl
  · have hpath := joinSegments_segments '/' path
    rw [hsegments] at hpath
    cases rest with
    | nil => exact hne (hpath.symm.trans (by rfl))
    | cons next rest =>
      rw [joinSegments_cons "" (List.cons_ne_nil next rest)] at hpath
      refine hrelative (isAbsolute_iff.2 ?_)
      rw [← hpath, String.toList_append, String.toList_append]
      rfl
  · rw [if_pos rfl] at h
    cases h

/-- The first component of a path tells its anchor. -/
theorem anchor_eq_filter (path : String) :
    anchor path = ((components path).take 1).filter fun c => c = "/" ∨ c = "." := by
  have hstart : anchor path = ["/"] ∨ anchor path = ["."] ∨ anchor path = [] := by
    unfold anchor
    split
    · exact Or.inl rfl
    · split
      · exact Or.inr (Or.inl rfl)
      · exact Or.inr (Or.inr rfl)
  have hcomponents : components path = anchor path ++ moving path := rfl
  rcases hstart with hroot | hdot | hnone
  · rw [hcomponents, hroot]
    rfl
  · rw [hcomponents, hdot]
    rfl
  · rw [hcomponents, hnone, List.nil_append, eq_comm, List.filter_eq_nil_iff]
    intro component hmem
    obtain ⟨hroot, hdot⟩ := ne_of_mem_moving (List.mem_of_mem_take hmem)
    simp [hroot, hdot]

theorem isAbsolute_iff_anchor : isAbsolute path = true ↔ anchor path = ["/"] := by
  unfold anchor
  split
  · simpa
  · next h =>
    refine iff_of_false h ?_
    split <;> decide

theorem components_ne_nil (hne : path ≠ "") : components path ≠ [] := by
  intro hnone
  obtain ⟨hanchor, hmoving⟩ := List.append_eq_nil_iff.1 (show anchor path ++ moving path = [] from hnone)
  exact moving_ne_nil hne hanchor hmoving

/-- Where the components of a path go on those of another, both paths start alike, and so do their
components that move. -/
theorem of_components_append {rest : List String} (hne : base ≠ "")
    (h : components directory = components base ++ rest) :
    isAbsolute directory = isAbsolute base ∧ moving directory = moving base ++ rest := by
  have hanchor : anchor directory = anchor base := by
    rw [anchor_eq_filter directory, anchor_eq_filter base, h, List.take_append_of_le_length]
    exact List.length_pos_iff.2 (components_ne_nil hne)
  refine ⟨by rw [Bool.eq_iff_iff, isAbsolute_iff_anchor, isAbsolute_iff_anchor, hanchor], ?_⟩
  have hwhole : anchor directory ++ moving directory = anchor base ++ moving base ++ rest := h
  rw [hanchor, List.append_assoc] at hwhole
  exact List.append_cancel_left hwhole

/-! ## Walks -/

/-- On a walk that leads somewhere, the components that do not move can be left out. -/
theorem foldlM_descend_filter_of_ok {components : List String} {found : List String}
    (h : components.foldlM tree.descend names = .ok found) :
    (components.filter moves).foldlM tree.descend names = .ok found := by
  induction components generalizing names with
  | nil => exact h
  | cons component rest ih =>
    rw [List.foldlM_cons] at h
    obtain ⟨next, hnext, hrest⟩ := exists_of_bind_eq_ok h
    cases hmoves : moves component with
    | true =>
      rw [List.filter_cons_of_pos hmoves, List.foldlM_cons, hnext]
      exact ih hrest
    | false =>
      rw [List.filter_cons_of_neg (by simp [hmoves])]
      obtain rfl : next = names := by
        rw [eq_of_descend hnext]
        rcases eq_of_not_moves hmoves with rfl | rfl <;> rfl
      exact ih hrest

/-! ## Addresses of files in a directory -/

/-- The components of a path that goes on from a directory, after those of the base directory. -/
theorem componentsAfter_append {rest : List String} (h : components path = components directory ++ rest)
    (hbefore : components base <+: components path → components base <+: components directory) :
    componentsAfter base path = componentsAfter base directory ++ rest := by
  unfold componentsAfter
  by_cases hbase : components base <+: components directory
  · have hlonger : components base <+: components path := h ▸ hbase.trans (List.prefix_append _ _)
    rw [if_pos (List.isPrefixOf_iff_prefix.2 hlonger), if_pos (List.isPrefixOf_iff_prefix.2 hbase), h,
      List.drop_append_of_le_length hbase.length_le]
  · rw [if_neg fun hlonger => hbase (hbefore (List.isPrefixOf_iff_prefix.1 hlonger)),
      if_neg fun hshorter => hbase (List.isPrefixOf_iff_prefix.1 hshorter), h]

/-- Where files of a directory are looked for by their addresses: in the directory itself if its path goes on
that of the base directory, and else where its path leads from there. -/
def seenFrom (base directory : String) : String :=
  if (components base).isPrefixOf (components directory) then directory else joinPath base directory

/-- What stands of a directory's components in the addresses of its files moves. -/
theorem moves_of_mem_moving_append (hnames : ∀ name ∈ names, IsName name) {front : List String}
    (hfront : ∀ component ∈ front, component ∈ moving directory) :
    ∀ component ∈ front ++ names, moves component = true ∧ '/' ∉ component.toList := by
  intro component hmem
  rcases List.mem_append.1 hmem with hmem | hmem
  · have hmoving := hfront component hmem
    exact ⟨moves_of_mem_moving hmoving, slash_not_mem_of_mem_segments (List.mem_filter.1 hmoving).1⟩
  · exact ⟨(hnames component hmem).moves, (hnames component hmem).slash_free⟩

/-- The path that the address of a file below a directory leads along. -/
structure LeadsBelow (path directory : String) (names : List String) : Prop where
  isAbsolute_eq : isAbsolute path = isAbsolute directory
  moving_eq : moving path = moving directory ++ names
  getLast?_eq : (segments '/' path).getLast? = names.getLast?

/-- A path that goes on from the base directory leads below every directory that has the components in
between. -/
theorem leadsBelow_joinPath {front : List String} (hne : names ≠ [])
    (hnames : ∀ name ∈ names, IsName name) (hfront : ∀ component ∈ front, component ∈ moving directory)
    (habsolute : isAbsolute path = isAbsolute base) (hmoving : moving path = moving base ++ front) :
    LeadsBelow (joinPath base (joinSegments '/' (front ++ names))) path names := by
  obtain ⟨hsegments, hrelative, hglued⟩ := glued_relative (List.append_ne_nil_of_right_ne_nil front hne)
    (moves_of_mem_moving_append hnames hfront)
  refine ⟨(isAbsolute_joinPath hrelative base).trans habsolute.symm, ?_, ?_⟩
  · rw [moving_joinPath hrelative, hglued, hmoving, List.append_assoc]
  · rw [getLast?_segments_joinPath hrelative, hsegments, List.getLast?_append_of_ne_nil _ hne]

/-- The files of a directory get their addresses from its components after those of the base directory, or
else from all of its components. -/
theorem seenFrom_cases (base directory : String) :
    (∃ rest, base ≠ "" ∧ components directory = components base ++ rest ∧
      componentsAfter base directory = rest ∧ seenFrom base directory = directory) ∨
    (componentsAfter base directory = components directory ∧
      seenFrom base directory = joinPath base directory) := by
  unfold componentsAfter seenFrom
  by_cases hbefore : (components base).isPrefixOf (components directory) = true
  · rw [if_pos hbefore, if_pos hbefore]
    by_cases hbase : base = ""
    · subst hbase
      refine Or.inr ⟨rfl, ?_⟩
      cases habsolute : isAbsolute directory with
      | true => exact (if_pos habsolute).symm
      | false => rw [joinPath_of_relative habsolute, front_empty, String.empty_append]
    · obtain ⟨rest, hrest⟩ := List.isPrefixOf_iff_prefix.1 hbefore
      exact Or.inl ⟨rest, hbase, hrest.symm, by rw [← hrest, List.drop_left], rfl⟩
  · rw [if_neg hbefore, if_neg hbefore]
    exact Or.inr ⟨rfl, rfl⟩

/-- From all components of a directory, its files get absolute addresses if it has an absolute path. -/
theorem leadsBelow_of_absolute (habsolute : isAbsolute directory = true) (hne : names ≠ [])
    (hnames : ∀ name ∈ names, IsName name) :
    LeadsBelow (joinSegments '/' ("/" :: (moving directory ++ names))) directory names := by
  have hwhole : moving directory ++ names ≠ [] := List.append_ne_nil_of_right_ne_nil _ hne
  have hmoves : ∀ component ∈ moving directory ++ names,
      moves component = true ∧ '/' ∉ component.toList :=
    moves_of_mem_moving_append hnames fun _ => id
  obtain ⟨hsegments, -, -⟩ := glued_relative hwhole hmoves
  have hpath : segments '/' (joinSegments '/' ("/" :: (moving directory ++ names))) =
      ["", ""] ++ (moving directory ++ names) := by
    rw [joinSegments_cons "/" hwhole, segments_append, hsegments]
    rfl
  refine ⟨?_, ?_, ?_⟩
  · rw [habsolute, isAbsolute_iff, joinSegments_cons "/" hwhole, String.toList_append,
      String.toList_append]
    rfl
  · show (segments '/' _).filter moves = _
    rw [hpath, List.filter_append, List.filter_eq_self.2 fun component hmem => (hmoves component hmem).1]
    rfl
  · rw [hpath, ← List.append_assoc, List.getLast?_append_of_ne_nil _ hne]

/-- The address of a file in a directory leads, from the base directory, to the file of the same names below
the directory as it is seen from there. -/
theorem leadsBelow_address (hne : names ≠ []) (hnames : ∀ name ∈ names, IsName name) :
    LeadsBelow
      (joinPath base (joinSegments '/' ((componentsAfter base directory).filter (· ≠ ".") ++ names)))
      (seenFrom base directory) names := by
  have hkept : ∀ front : List String, (∀ component ∈ front, component ∈ moving directory) →
      front.filter (· ≠ ".") = front :=
    fun front hfront => filter_ne_dot fun component hmem => moves_of_mem_moving (hfront component hmem)
  rcases seenFrom_cases base directory with
    ⟨rest, hbase, hrest, hafter, hseen⟩ | ⟨hafter, hseen⟩
  · obtain ⟨habsolute, hmoving⟩ := of_components_append hbase hrest
    have hmem : ∀ component ∈ rest, component ∈ moving directory := fun component hmem => by
      rw [hmoving]
      exact List.mem_append_right _ hmem
    rw [hafter, hkept rest hmem, hseen]
    exact leadsBelow_joinPath hne hnames hmem habsolute hmoving
  · rw [hafter, hseen, show components directory = anchor directory ++ moving directory from rfl,
      List.filter_append, hkept _ fun _ => id]
    cases habsolute : isAbsolute directory with
    | true =>
      have hspec := leadsBelow_of_absolute habsolute hne hnames
      have hanchor : (anchor directory).filter (· ≠ ".") = ["/"] := by
        rw [isAbsolute_iff_anchor.1 habsolute]
        rfl
      rw [hanchor, List.singleton_append, List.cons_append]
      unfold joinPath
      rw [if_pos habsolute, if_pos (hspec.isAbsolute_eq.trans habsolute)]
      exact hspec
    | false =>
      rw [filter_anchor habsolute, List.nil_append]
      exact leadsBelow_joinPath hne hnames (fun _ => id) (isAbsolute_joinPath habsolute base)
        (moving_joinPath habsolute base)

/-- Where a path that leads below a directory leads. -/
theorem LeadsBelow.walk_eq (h : LeadsBelow path directory names)
    (hnames : ∀ name ∈ names, IsName name) (hcheck : checkPath path = .ok ())
    (hdirectory : tree.walk directory = .ok place) :
    tree.walk path = names.foldlM tree.descend place := by
  obtain ⟨⟨⟩, -, hwalk⟩ := exists_of_bind_eq_ok hdirectory
  have hlast : ∀ last ∈ (segments '/' path).getLast?, moves last = true := by
    rw [h.getLast?_eq]
    exact fun last hmem => (hnames last (List.mem_of_getLast? hmem)).moves
  have hmoving : (segments '/' path).filter moves = (segments '/' directory).filter moves ++ names :=
    h.moving_eq
  unfold walk
  rw [hcheck]
  show (segments '/' path).foldlM tree.descend (tree.startOf path) = _
  rw [foldlM_descend_filter tree _ hlast, hmoving, List.foldlM_append]
  unfold startOf at hwalk ⊢
  rw [h.isAbsolute_eq, foldlM_descend_filter_of_ok hwalk]
  rfl

/-- The path of a directory leads to the base directory or to one below it, however both are spelled. -/
def AtOrBelow (tree : FileTree) (base directory : String) : Prop :=
  tree.placeOf base <+: tree.placeOf directory

instance (tree : FileTree) (base directory : String) : Decidable (tree.AtOrBelow base directory) :=
  inferInstanceAs (Decidable (_ <+: _))

/-- Where a path leads, by the components that move. -/
theorem placeOf_eq (tree : FileTree) (path : String) :
    tree.placeOf path = (moving path).foldl Address.descend (tree.startOf path) :=
  (foldl_descend_filter _ _).symm

/-- The base directory does not go on below a directory that is not above it. -/
theorem AtOrBelow.prefix_of_append (h : tree.AtOrBelow base directory) (hdirectory : directory ≠ "")
    (hnames : ∀ name ∈ names, IsName name)
    (hbefore : components base <+: components directory ++ names) :
    components base <+: components directory := by
  rcases List.prefix_or_prefix_of_prefix hbefore (List.prefix_append _ names) with hshorter | ⟨extra, hextra⟩
  · exact hshorter
  · rw [← hextra, List.prefix_append_right_inj] at hbefore
    obtain ⟨habsolute, hmoving⟩ := of_components_append hdirectory hextra.symm
    have hplace : tree.placeOf base = tree.placeOf directory ++ extra := by
      have hstart : tree.startOf base = tree.startOf directory := by
        unfold startOf
        rw [habsolute]
      rw [placeOf_eq, placeOf_eq, hmoving, hstart, List.foldl_append,
        foldl_descend_names fun name hname => hnames name (hbefore.subset hname)]
    have hlength := h.length_le
    rw [hplace, List.length_append] at hlength
    obtain rfl : extra = [] := List.length_eq_zero_iff.1 (by omega)
    have hsame : components base = components directory := by rw [← hextra, List.append_nil]
    exact hsame ▸ List.prefix_refl _

end FileTree

end ShapeGraph
