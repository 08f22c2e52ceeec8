import Mathlib.Data.String.Basic
import ShapeGraph.Files.FileTree
import ShapeGraph.Proofs.RoundTrips
import ShapeGraph.Proofs.Walks

/-!
# Spellings of paths

Many paths lead to the same file.  Dots and empty components make no difference on the way, since only a
directory can be walked through.  At the end of a path they would ask for a directory, but no path of a
file ends in one.

## Main definitions

* `FileTree.moving` — the components of a path that move.
* `FileTree.front` — what stands in front of a path below a directory.
* `FileTree.clean` — a path without the components that do not move.

## Main results

* `FileTree.foldlM_descend_filter` — on a walk, the others can be left out.
* `FileTree.walk_eq_of_moving_eq` — paths with the same moving components lead to the same place.
* `FileTree.componentsAfter_joinPath` — the components of a path below a directory.
* `FileTree.read_joinPath_clean` — a path below a directory can be cleaned.

## Design

A path that is cleaned only becomes shorter, and holds no characters that it did not hold before.  So it
passes the check for paths if it has passed it before.
-/

set_option autoImplicit false

namespace ShapeGraph

/-! ## Cutting and gluing -/

/-- Leaving out pieces leaves out characters. -/
theorem intercalate_sublist {α : Type} (sep : List α) {l m : List (List α)} (h : l.Sublist m) :
    (sep.intercalate l).Sublist (sep.intercalate m) := by
  induction h with
  | slnil => exact .refl _
  | @cons l m piece h ih =>
    cases m with
    | nil => rw [List.sublist_nil.1 h]; simp
    | cons q rest =>
      rw [List.intercalate_cons_cons]
      exact ih.trans (List.sublist_append_right _ _)
  | @cons_cons l m piece h ih =>
    cases l with
    | nil =>
      cases m with
      | nil => exact .refl _
      | cons q rest =>
        rw [List.intercalate_cons_cons, List.intercalate_singleton, List.append_assoc]
        exact List.sublist_append_left _ _
    | cons p others =>
      cases m with
      | nil => cases h
      | cons q rest =>
        rw [List.intercalate_cons_cons, List.intercalate_cons_cons]
        exact ih.append_left _

/-- A separator cuts a text into its two sides. -/
theorem segments_append (a b : String) :
    segments '/' (a ++ "/" ++ b) = segments '/' a ++ segments '/' b := by
  unfold segments
  rw [← List.map_append, ← List.splitOn_append_cons_self]
  congr 2
  rw [String.toList_append, String.toList_append, List.append_assoc]
  rfl

/-- Pieces that are cut from a list hold no separator. -/
theorem not_mem_of_mem_splitOn {sep : Char} {cs piece : List Char} (h : piece ∈ cs.splitOn sep) :
    sep ∉ piece := by
  induction cs generalizing piece with
  | nil =>
    rw [List.splitOn_nil, List.mem_singleton] at h
    rw [h]
    exact List.not_mem_nil
  | cons c cs ih =>
    rw [List.splitOn_cons_eq_if_modifyHead] at h
    split at h
    · rcases List.mem_cons.1 h with rfl | h
      · exact List.not_mem_nil
      · exact ih h
    · next hc =>
      -- The character goes to the first piece, which is one of the rest otherwise.
      obtain ⟨first, rest, hcs⟩ := List.exists_cons_of_ne_nil (List.splitOn_ne_nil sep cs)
      rw [hcs, List.modifyHead_cons] at h
      rw [hcs] at ih
      rcases List.mem_cons.1 h with rfl | h
      · intro hmem
        rcases List.mem_cons.1 hmem with rfl | hmem
        · exact hc (beq_self_eq_true sep)
        · exact ih List.mem_cons_self hmem
      · exact ih (List.mem_cons_of_mem _ h)

/-- Pieces that are cut from a text hold no separator. -/
theorem slash_not_mem_of_mem_segments {s piece : String} (h : piece ∈ segments '/' s) :
    '/' ∉ piece.toList := by
  obtain ⟨cs, hcs, rfl⟩ := List.mem_map.1 h
  rw [String.toList_ofList]
  exact not_mem_of_mem_splitOn hcs

/-- Cutting undoes gluing, if the pieces are free of slashes. -/
theorem segments_joinSegments {pieces : List String} (hne : pieces ≠ [])
    (h : ∀ p ∈ pieces, '/' ∉ p.toList) : segments '/' (joinSegments '/' pieces) = pieces := by
  rw [joinSegments_eq_intercalate]
  exact segments_intercalate hne h

/-- A text without slashes is its only piece. -/
theorem segments_of_slash_free {s : String} (h : '/' ∉ s.toList) : segments '/' s = [s] := by
  have hjoin : joinSegments '/' [s] = s := by
    apply String.toList_injective
    simp [joinSegments]
  have hcut := segments_joinSegments (List.cons_ne_nil s []) (List.forall_mem_singleton.2 h)
  rwa [hjoin] at hcut

/-- A piece in front of others is cut off by a separator. -/
theorem joinSegments_cons (first : String) {rest : List String} (hne : rest ≠ []) :
    joinSegments '/' (first :: rest) = first ++ "/" ++ joinSegments '/' rest := by
  obtain ⟨next, others, rfl⟩ := List.exists_cons_of_ne_nil hne
  rw [joinSegments_eq_intercalate, joinSegments_eq_intercalate, String.intercalate_cons_cons]

namespace FileTree

variable {tree : FileTree} {names : List String} {path : String}

/-! ## Walks -/

/-- The components of a path that move. -/
def moving (path : String) : List String := (segments '/' path).filter moves

/-- What does not move is a dot or empty. -/
theorem eq_of_not_moves {component : String} (h : moves component = false) :
    component = "" ∨ component = "." := by
  unfold moves at h
  rwa [Bool.and_eq_false_iff, decide_eq_false_iff_not, decide_eq_false_iff_not, not_not,
    not_not] at h

/-- A step by a component that does not move goes nowhere, and only a directory allows it. -/
theorem descend_of_not_moves {component : String} (h : moves component = false)
    (tree : FileTree) (names : List String) :
    (tree.descend names component = .ok names ∧ tree.entry? names = some .directory) ∨
      ∃ fault, ∀ other, tree.descend names other = .error fault := by
  have hstill : component ≠ ".." ∧ (component = "." ∨ component = "") := by
    rcases eq_of_not_moves h with rfl | rfl <;> decide
  unfold descend
  split
  · exact Or.inr ⟨_, fun _ => rfl⟩
  · next hentry =>
    rw [if_neg hstill.1, if_pos hstill.2]
    exact Or.inl ⟨rfl, hentry⟩
  · exact Or.inr ⟨_, fun _ => rfl⟩

/-- On a walk that ends in a component that moves, those that do not can be left out.

**Proof sketch.** Induction on the components.  Where one that does not move is refused, so is the next
one that moves. -/
theorem foldlM_descend_filter (tree : FileTree) (names : List String) {components : List String}
    (h : ∀ last ∈ components.getLast?, moves last = true) :
    components.foldlM tree.descend names = (components.filter moves).foldlM tree.descend names := by
  induction components generalizing names with
  | nil => rfl
  | cons component rest ih =>
    cases rest with
    | nil => rw [List.filter_cons_of_pos (h component rfl)]; rfl
    | cons next rest =>
      replace ih := fun names => ih names h
      cases hmoves : moves component with
      | true =>
        rw [List.filter_cons_of_pos hmoves, List.foldlM_cons, List.foldlM_cons]
        exact congrArg _ (funext ih)
      | false =>
        rw [List.filter_cons_of_neg (by simp [hmoves]), List.foldlM_cons, ← ih]
        rcases descend_of_not_moves hmoves tree names with ⟨hstays, -⟩ | ⟨fault, hrefused⟩
        · rw [hstays]
          rfl
        · rw [List.foldlM_cons, hrefused, hrefused]
          rfl

/-- What is known of a path that leads to a file: it passes the check, and the walk along it ends at an
entry that is no directory. -/
theorem exists_walk_of_isFile (h : tree.isFile path = true) :
    checkPath path = .ok () ∧ ∃ names,
      (segments '/' path).foldlM tree.descend (tree.startOf path) = .ok names ∧
        tree.entry? names ≠ some .directory := by
  unfold isFile entryAt? at h
  cases hwalk : tree.walk path with
  | error fault =>
    rw [hwalk] at h
    cases h
  | ok names =>
    rw [hwalk] at h
    obtain ⟨⟨⟩, hcheck, hnames⟩ := exists_of_bind_eq_ok hwalk
    refine ⟨hcheck, names, hnames, fun hentry => ?_⟩
    dsimp only at h
    rw [hentry] at h
    cases h

/-- The path of a file ends in a component that moves. -/
theorem moves_of_isFile (h : tree.isFile path = true) :
    ∀ last ∈ (segments '/' path).getLast?, moves last = true := by
  intro last hlast
  obtain ⟨-, names, hnames, hentry⟩ := exists_walk_of_isFile h
  obtain ⟨front, hfront⟩ := List.getLast?_eq_some_iff.1 hlast
  rw [hfront, List.foldlM_append] at hnames
  obtain ⟨parent, -, hlast⟩ := exists_of_bind_eq_ok hnames
  rw [List.foldlM_cons] at hlast
  obtain ⟨found, hfound, hlast⟩ := exists_of_bind_eq_ok hlast
  cases hlast
  by_contra hmoves
  rcases descend_of_not_moves (eq_false_of_ne_true hmoves) tree parent with
    ⟨hstays, hdirectory⟩ | ⟨fault, hrefused⟩
  · rw [hstays] at hfound
    cases hfound
    exact hentry hdirectory
  · rw [hrefused] at hfound
    cases hfound

/-- Paths that start at the same place and have the same moving components lead to the same place, if
both end in one of these and pass the check. -/
theorem walk_eq_of_moving_eq {other : String} (habsolute : isAbsolute other = isAbsolute path)
    (hmoving : moving other = moving path)
    (hpath : ∀ last ∈ (segments '/' path).getLast?, moves last = true)
    (hother : ∀ last ∈ (segments '/' other).getLast?, moves last = true)
    (hcheck : checkPath path = .ok ()) (hcheck' : checkPath other = .ok ()) :
    tree.walk other = tree.walk path := by
  have hstart : tree.startOf other = tree.startOf path := by
    unfold startOf
    rw [habsolute]
  unfold moving at hmoving
  unfold walk
  rw [hcheck, hcheck', foldlM_descend_filter tree _ hpath, foldlM_descend_filter tree _ hother,
    hstart, hmoving]

/-- A path that passes the check still does so when characters are left out. -/
theorem checkPath_of_sublist {other : String} (hcheck : checkPath path = .ok ())
    (hsublist : other.toList.Sublist path.toList) (hne : other ≠ "") :
    checkPath other = .ok () := by
  unfold checkPath at hcheck ⊢
  split at hcheck
  · cases hcheck
  · next hnul =>
    split at hcheck
    · cases hcheck
    · split at hcheck
      · cases hcheck
      · next hlength =>
        have hle := String.utf8Len_le_of_sublist hsublist
        rw [String.utf8Len_toList, String.utf8Len_toList] at hle
        rw [if_neg, if_neg hne, if_neg (by omega)]
        rw [List.contains_iff_mem] at hnul ⊢
        exact fun hmem => hnul (hsublist.subset hmem)

/-! ## Paths below a directory -/

theorem isAbsolute_iff : isAbsolute path = true ↔ path.toList.head? = some '/' := by
  unfold isAbsolute
  cases path.toList with
  | nil => decide
  | cons c cs =>
    rw [List.isPrefixOf_cons_cons, List.isPrefixOf_nil_left, Bool.and_true, beq_iff_eq, List.head?_cons,
      Option.some_inj, eq_comm]

/-- The first component of an absolute path is empty. -/
theorem empty_mem_segments_of_isAbsolute (h : isAbsolute path = true) : "" ∈ segments '/' path := by
  obtain ⟨cs, hcs⟩ := List.head?_eq_some_iff.1 (isAbsolute_iff.1 h)
  have hpath : path = "" ++ "/" ++ String.ofList cs := by
    apply String.toList_injective
    rw [hcs, String.toList_append, String.toList_ofList]
    rfl
  rw [hpath, segments_append]
  exact List.mem_append_left _ List.mem_cons_self

/-- What stands in front of a path below a directory: the directory and, if need be, a slash. -/
def front (directory : String) : String :=
  if directory = "" ∨ directory.toList.getLast? = some '/' then directory else directory ++ "/"

theorem joinPath_of_relative {relative : String} (h : isAbsolute relative = false)
    (directory : String) : joinPath directory relative = front directory ++ relative := by
  unfold joinPath front
  rw [if_neg (Bool.eq_false_iff.1 h)]
  split <;> rfl

theorem front_empty : front "" = "" := if_pos (Or.inl rfl)

/-- The front of a path ends in a slash, and is the directory apart from that. -/
theorem exists_front_eq {directory : String} (hne : directory ≠ "") :
    ∃ before, front directory = before ++ "/" ∧
      (directory = before ∨ directory = before ++ "/") := by
  unfold front
  by_cases hslash : directory.toList.getLast? = some '/'
  · rw [if_pos (Or.inr hslash)]
    obtain ⟨before, hbefore⟩ := List.getLast?_eq_some_iff.1 hslash
    have heq : directory = String.ofList before ++ "/" := by
      apply String.toList_injective
      rw [hbefore, String.toList_append, String.toList_ofList]
      rfl
    exact ⟨String.ofList before, heq, Or.inr heq⟩
  · rw [if_neg fun h => h.elim hne hslash]
    exact ⟨directory, rfl, Or.inl rfl⟩

theorem front_front (directory : String) : front (front directory) = front directory := by
  by_cases hempty : directory = ""
  · subst hempty
    rw [front_empty, front_empty]
  · obtain ⟨before, hfront, -⟩ := exists_front_eq hempty
    rw [hfront]
    unfold front
    rw [if_pos (Or.inr ?_)]
    rw [String.toList_append]
    exact List.getLast?_concat ..

theorem front_append (directory : String) {relative : String} (hne : relative ≠ "") :
    front (directory ++ relative) = directory ++ front relative := by
  have hlast : (directory ++ relative).toList.getLast? = relative.toList.getLast? := by
    rw [String.toList_append, List.getLast?_append_of_ne_nil _ (by simpa using hne)]
  have hwhole : directory ++ relative ≠ "" := fun h => hne (String.append_eq_empty_iff.1 h).2
  unfold front
  rw [hlast]
  by_cases hslash : relative.toList.getLast? = some '/'
  · rw [if_pos (Or.inr hslash), if_pos (Or.inr hslash)]
  · rw [if_neg fun h => h.elim hwhole hslash, if_neg fun h => h.elim hne hslash, String.append_assoc]

variable {directory relative : String}

/-- The components of a path below a directory are those of the directory, as far as they matter, and then
those of the rest. -/
theorem exists_segments_joinPath (h : isAbsolute relative = false) (directory : String) :
    ∃ before, segments '/' (joinPath directory relative) = before ++ segments '/' relative ∧
      before.filter moves = moving directory ∧
      (directory ≠ "" → before.head? = (segments '/' directory).head? ∧ before ≠ []) := by
  rw [joinPath_of_relative h]
  by_cases hempty : directory = ""
  · subst hempty
    exact ⟨[], by rw [front_empty, String.empty_append]; rfl, rfl, fun hne => absurd rfl hne⟩
  · obtain ⟨before, hfront, hdirectory⟩ := exists_front_eq hempty
    refine ⟨segments '/' before, by rw [hfront, segments_append], ?_, fun _ => ?_⟩
    · rcases hdirectory with rfl | rfl
      · rfl
      · unfold moving
        rw [← String.append_empty (s := before ++ "/"), segments_append, List.filter_append]
        simp [segments, moves]
    · refine ⟨?_, segments_ne_nil '/' before⟩
      rcases hdirectory with rfl | rfl
      · rfl
      · rw [← String.append_empty (s := before ++ "/"), segments_append,
          List.head?_append_of_ne_nil _ (segments_ne_nil '/' before)]

theorem moving_joinPath (h : isAbsolute relative = false) (directory : String) :
    moving (joinPath directory relative) = moving directory ++ moving relative := by
  obtain ⟨before, hsegments, hbefore, -⟩ := exists_segments_joinPath h directory
  unfold moving at hbefore ⊢
  rw [hsegments, List.filter_append, hbefore]

theorem getLast?_segments_joinPath (h : isAbsolute relative = false) (directory : String) :
    (segments '/' (joinPath directory relative)).getLast? = (segments '/' relative).getLast? := by
  obtain ⟨before, hsegments, -, -⟩ := exists_segments_joinPath h directory
  rw [hsegments, List.getLast?_append_of_ne_nil _ (segments_ne_nil '/' relative)]

theorem isAbsolute_joinPath (h : isAbsolute relative = false) (directory : String) :
    isAbsolute (joinPath directory relative) = isAbsolute directory := by
  rw [joinPath_of_relative h, Bool.eq_iff_iff, isAbsolute_iff, isAbsolute_iff]
  by_cases hempty : directory = ""
  · subst hempty
    rw [front_empty, String.empty_append, ← isAbsolute_iff, h]
    decide
  · obtain ⟨before, hfront, rfl | rfl⟩ := exists_front_eq hempty
    · have hne : directory.toList ≠ [] := by simpa using hempty
      rw [hfront, String.toList_append, String.toList_append, List.append_assoc,
        List.head?_append_of_ne_nil _ hne]
    · rw [hfront, String.toList_append (s := before ++ "/"),
        List.head?_append_of_ne_nil _ (by simp)]

/-- Going down twice is going down once by both parts. -/
theorem joinPath_joinPath {name : String} (h : isAbsolute relative = false)
    (hname : isAbsolute name = false) (directory : String) :
    joinPath (joinPath directory relative) name = joinPath directory (joinPath relative name) := by
  have hjoined := (isAbsolute_joinPath hname relative).trans h
  rw [joinPath_of_relative hname, joinPath_of_relative hjoined, joinPath_of_relative hname,
    joinPath_of_relative h]
  by_cases hempty : relative = ""
  · subst hempty
    rw [String.append_empty, front_front, front_empty, String.empty_append]
  · rw [front_append _ hempty, String.append_assoc]

/-- The anchor of a path below a directory is that of the directory, unless this is the empty path. -/
theorem anchor_joinPath (h : isAbsolute relative = false) (hne : directory ≠ "") :
    anchor (joinPath directory relative) = anchor directory := by
  obtain ⟨before, hsegments, -, hbefore⟩ := exists_segments_joinPath h directory
  obtain ⟨hhead, hbefore⟩ := hbefore hne
  unfold anchor
  rw [isAbsolute_joinPath h, hsegments, List.head?_append_of_ne_nil _ hbefore, hhead]

/-- The components of a path that goes on from a directory are those of the directory, and then those that
move. -/
theorem components_joinPath (h : isAbsolute relative = false) (hne : directory ≠ "") :
    components (joinPath directory relative) = components directory ++ moving relative := by
  change anchor _ ++ moving _ = (anchor directory ++ moving directory) ++ _
  rw [anchor_joinPath h hne, moving_joinPath h, List.append_assoc]

/-- No component that moves is a dot. -/
theorem filter_ne_dot {components : List String} (h : ∀ component ∈ components, moves component = true) :
    components.filter (· ≠ ".") = components := by
  rw [List.filter_eq_self]
  intro component hmem
  have hmoves := h component hmem
  unfold moves at hmoves
  exact (Bool.and_eq_true_iff.1 hmoves).2

theorem moves_of_mem_moving {component : String} (h : component ∈ moving path) :
    moves component = true :=
  (List.mem_filter.1 h).2

/-- A relative path starts with nothing but perhaps a dot. -/
theorem filter_anchor (h : isAbsolute relative = false) : (anchor relative).filter (· ≠ ".") = [] := by
  unfold anchor
  rw [if_neg (Bool.eq_false_iff.1 h)]
  split <;> rfl

/-- The components after those of a directory are those that move in the rest. -/
theorem componentsAfter_joinPath (h : isAbsolute relative = false) (directory : String) :
    (componentsAfter directory (joinPath directory relative)).filter (· ≠ ".") =
      moving relative := by
  have hmoving : (moving relative).filter (· ≠ ".") = moving relative :=
    filter_ne_dot fun _ => moves_of_mem_moving
  unfold componentsAfter
  by_cases hempty : directory = ""
  · subst hempty
    have hnone : components "" = [] := rfl
    have hcomponents : components relative = anchor relative ++ moving relative := rfl
    rw [hnone, List.isPrefixOf_nil_left, if_pos rfl, List.length_nil, List.drop_zero,
      joinPath_of_relative h, front_empty, String.empty_append, hcomponents, List.filter_append, hmoving,
      filter_anchor h, List.nil_append]
  · rw [components_joinPath h hempty, if_pos (List.isPrefixOf_iff_prefix.2 (List.prefix_append _ _)),
      List.drop_left, hmoving]

/-! ## Clean paths -/

/-- A path without the components that do not move. -/
def clean (path : String) : String := joinSegments '/' (moving path)

theorem segments_clean (hne : moving path ≠ []) : segments '/' (clean path) = moving path :=
  segments_joinSegments hne fun _ hp => slash_not_mem_of_mem_segments (List.mem_filter.1 hp).1

theorem moving_clean (hne : moving path ≠ []) : moving (clean path) = moving path := by
  rw [moving, segments_clean hne, List.filter_eq_self]
  exact fun _ => moves_of_mem_moving

/-- A path that is cleaned starts with a component that moves, so neither is it empty, nor does it start
with a slash. -/
theorem isAbsolute_clean (hne : moving path ≠ []) : isAbsolute (clean path) = false := by
  rw [Bool.eq_false_iff]
  intro habsolute
  have hmem := empty_mem_segments_of_isAbsolute habsolute
  rw [segments_clean hne] at hmem
  cases moves_of_mem_moving hmem

theorem clean_ne_empty (hne : moving path ≠ []) : clean path ≠ "" := by
  intro hempty
  have hmem : "" ∈ segments '/' (clean path) := by
    rw [hempty]
    exact List.mem_cons_self
  rw [segments_clean hne] at hmem
  cases moves_of_mem_moving hmem

/-- Cleaning leaves out characters. -/
theorem clean_sublist (path : String) : (clean path).toList.Sublist path.toList := by
  have hsublist := intercalate_sublist ['/']
    ((List.filter_sublist (p := moves) (l := segments '/' path)).map String.toList)
  have hpath : path.toList = ['/'].intercalate ((segments '/' path).map String.toList) := by
    conv_lhs => rw [← joinSegments_segments '/' path]
    exact String.toList_ofList
  rw [hpath]
  exact String.toList_ofList ▸ hsublist

/-- A path that leads to a file can be cleaned from the directory on.

**Proof sketch.** The cleaned path has the same moving components, starts at the same place and ends in one
that moves, too.  It is made of characters of the path in the same order, so it passes the check. -/
theorem read_joinPath_clean (h : isAbsolute relative = false)
    (hfile : tree.isFile (joinPath directory relative) = true) :
    tree.read (joinPath directory (clean relative)) =
      tree.read (joinPath directory relative) := by
  have hlast := moves_of_isFile hfile
  obtain ⟨hcheck, -⟩ := exists_walk_of_isFile hfile
  -- The last component moves, so there is one that does.
  have hne : moving relative ≠ [] := by
    rw [getLast?_segments_joinPath h] at hlast
    have hmem := List.getLast_mem (segments_ne_nil '/' relative)
    exact List.ne_nil_of_mem (List.mem_filter.2
      ⟨hmem, hlast _ (List.getLast?_eq_some_getLast (segments_ne_nil '/' relative))⟩)
  have hclean := isAbsolute_clean hne
  have habsolute := (isAbsolute_joinPath hclean directory).trans (isAbsolute_joinPath h directory).symm
  have hmoving : moving (joinPath directory (clean relative)) =
      moving (joinPath directory relative) := by
    rw [moving_joinPath hclean, moving_joinPath h, moving_clean hne]
  have hlast' : ∀ last ∈ (segments '/' (joinPath directory (clean relative))).getLast?,
      moves last = true := by
    rw [getLast?_segments_joinPath hclean, segments_clean hne]
    exact fun last hmem => moves_of_mem_moving (List.mem_of_getLast? hmem)
  have hcheck' : checkPath (joinPath directory (clean relative)) = .ok () := by
    refine checkPath_of_sublist hcheck ?_ ?_
    · rw [joinPath_of_relative h, joinPath_of_relative hclean, String.toList_append,
        String.toList_append]
      exact (clean_sublist relative).append_left _
    · rw [joinPath_of_relative hclean]
      intro hempty
      exact clean_ne_empty hne (String.append_eq_empty_iff.1 hempty).2
  unfold read
  rw [walk_eq_of_moving_eq habsolute hmoving hlast hlast' hcheck hcheck']

end FileTree

end ShapeGraph
