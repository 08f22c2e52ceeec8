import ShapeGraph.Proofs.Addresses

/-!
# Sibling documents

A document that gives the bare name of another file means its sibling, the file of that name in its own
directory.  This holds in the directories below a base, whose addresses are clean.  It fails in every
directory with an empty component in its address, and thus whenever a document stands at an absolute path
or a URL: these live on an empty component, and the address that comes out has none.

## Main results

* `Address.empty_mem_segments_of_isStandalone` — absolute paths and URLs have an empty component.
* `Address.join_file` — what the name of a file means, by the components of the directory.
* `Address.isStandalone_join_file` — it is never an absolute path or a URL.
* `Address.join_sibling` — in which directories it means the sibling.
* `Address.not_forall_join_sibling` — it does not do so everywhere.
-/

set_option autoImplicit false

namespace ShapeGraph

/-- A text inside another one has something before it and something after it. -/
theorem exists_of_hasInfix {part s : String} (h : hasInfix part s = true) :
    ∃ before after, s = before ++ part ++ after := by
  suffices hgo : ∀ cs : List Char, hasInfix.go part cs = true →
      ∃ before after, cs = before ++ part.toList ++ after by
    obtain ⟨before, after, heq⟩ := hgo s.toList h
    refine ⟨String.ofList before, String.ofList after, String.toList_injective ?_⟩
    simpa using heq
  intro cs hcs
  induction cs with
  | nil => exact ⟨[], [], by simpa [hasInfix.go] using hcs⟩
  | cons c rest ih =>
    rcases Bool.or_eq_true_iff.1 hcs with hhere | hlater
    · obtain ⟨after, hafter⟩ := List.isPrefixOf_iff_prefix.1 hhere
      exact ⟨[], after, by simpa using hafter.symm⟩
    · obtain ⟨before, after, heq⟩ := ih hlater
      exact ⟨c :: before, after, by simp [heq]⟩

namespace Address

variable {directory file name address : String}

/-! ## Empty components -/

/-- Absolute paths and URLs have an empty component: before the first slash, or between two of them. -/
theorem empty_mem_segments_of_isStandalone (h : isStandalone address = true) :
    "" ∈ segments '/' address := by
  rcases Bool.or_eq_true_iff.1 h with habsolute | hscheme
  · exact FileTree.empty_mem_segments_of_isAbsolute habsolute
  · obtain ⟨before, after, rfl⟩ := exists_of_hasInfix hscheme
    have hslashes : before ++ "://" ++ after = before ++ ":" ++ "/" ++ ("" ++ "/" ++ after) := by
      apply String.toList_injective
      simp
    rw [hslashes, segments_append, segments_append]
    exact List.mem_append_right _ (List.mem_append_left _ List.mem_cons_self)

theorem IsName.isStandalone_eq_false (h : IsName name) : isStandalone name = false := by
  rw [Bool.eq_false_iff]
  intro hstandalone
  have hmem := empty_mem_segments_of_isStandalone hstandalone
  rw [segments_of_slash_free h.slash_free, List.mem_singleton] at hmem
  exact h.ne_empty hmem.symm

/-- A file in a directory has the components of the directory and its name. -/
theorem segments_file (hname : IsName name) (directory : String) :
    segments '/' (directory ++ "/" ++ name) = segments '/' directory ++ [name] := by
  rw [segments_append, segments_of_slash_free hname.slash_free]

/-! ## The meaning of names of files -/

/-- In a document, the name of a file means that file in a directory that has lost its empty components. -/
theorem join_file (hfile : IsName file) (hname : IsName name) (directory : String) :
    join (directory ++ "/" ++ file) name =
      joinSegments '/' ((segments '/' directory).filter (· ≠ "") ++ [name]) := by
  have hdown : (segments '/' name).foldl descend (segments '/' directory) =
      segments '/' directory ++ [name] := by
    rw [segments_of_slash_free hname.slash_free]
    exact foldl_descend_names (List.forall_mem_singleton.2 hname) _
  have hkept : [name].filter (· ≠ "") = [name] := List.filter_singleton.trans (by simp [hname.ne_empty])
  unfold join
  rw [if_neg (Bool.eq_false_iff.1 hname.isStandalone_eq_false), segments_file hfile, List.dropLast_concat]
  show joinSegments '/' (((segments '/' name).foldl descend (segments '/' directory)).filter (· ≠ "")) = _
  rw [hdown, List.filter_append, hkept]

theorem segments_join_file (hfile : IsName file) (hname : IsName name) (directory : String) :
    segments '/' (join (directory ++ "/" ++ file) name) =
      (segments '/' directory).filter (· ≠ "") ++ [name] := by
  rw [join_file hfile hname]
  apply segments_joinSegments (List.concat_ne_nil _ _)
  intro component hcomponent
  rcases List.mem_append.1 hcomponent with hmem | hmem
  · exact slash_not_mem_of_mem_segments (List.mem_of_mem_filter hmem)
  · rw [List.mem_singleton.1 hmem]
    exact hname.slash_free

/-- The name of a file never means something at an absolute path or a URL. -/
theorem isStandalone_join_file (hfile : IsName file) (hname : IsName name) (directory : String) :
    isStandalone (join (directory ++ "/" ++ file) name) = false := by
  rw [Bool.eq_false_iff]
  intro hstandalone
  have hmem := empty_mem_segments_of_isStandalone hstandalone
  rw [segments_join_file hfile hname, List.mem_append, List.mem_singleton] at hmem
  rcases hmem with hmem | hmem
  · simpa using List.of_mem_filter hmem
  · exact hname.ne_empty hmem.symm

/-- It means the sibling if the directory has no empty components, and only then. -/
theorem join_file_eq_iff (hfile : IsName file) (hname : IsName name) (directory : String) :
    join (directory ++ "/" ++ file) name = directory ++ "/" ++ name ↔ "" ∉ segments '/' directory := by
  constructor
  · intro heq hmem
    have hsegments := congrArg (segments '/') heq
    rw [segments_join_file hfile hname, segments_file hname] at hsegments
    rw [← List.append_cancel_right hsegments] at hmem
    simpa using List.of_mem_filter hmem
  · intro hempty
    have hkept : (segments '/' directory).filter (· ≠ "") = segments '/' directory := by
      rw [List.filter_eq_self]
      intro component hcomponent
      have hne : component ≠ "" := fun heq => hempty (heq ▸ hcomponent)
      simpa using hne
    rw [join_file hfile hname, hkept, ← segments_file hname, joinSegments_segments]

/-! ## Main result -/

/-- A document that gives the name of a file means its sibling of that name just in case its directory has
no empty component.  Directories with clean addresses are so.  Absolute paths and URLs are not: from there
the name leads to an address that is neither, even if it is the document's own name. -/
theorem join_sibling (hfile : IsName file) (hname : IsName name) (directory : String) :
    (join (directory ++ "/" ++ file) name = directory ++ "/" ++ name ↔ "" ∉ segments '/' directory) ∧
    (IsClean directory → directory ≠ "" →
      join (directory ++ "/" ++ file) name = directory ++ "/" ++ name) ∧
    (isStandalone directory = true →
      join (directory ++ "/" ++ file) name ≠ directory ++ "/" ++ name ∧
        isStandalone (join (directory ++ "/" ++ file) name) = false) := by
  have hiff := join_file_eq_iff hfile hname directory
  refine ⟨hiff, fun hclean hne => hiff.2 ?_, fun hstandalone => ⟨fun heq => ?_, ?_⟩⟩
  · obtain ⟨names, hnames, rfl⟩ := hclean
    rcases segments_glued fun n hn => (hnames n hn).slash_free with heq | ⟨rfl, -⟩
    · rw [heq]
      exact fun hmem => (hnames "" hmem).ne_empty rfl
    · exact absurd rfl hne
  · exact hiff.1 heq (empty_mem_segments_of_isStandalone hstandalone)
  · exact isStandalone_join_file hfile hname directory

/-- A document at an absolute path that names itself means a document below the base. -/
theorem join_sibling_order :
    IsName "order.json" ∧ isStandalone "/schemas" = true ∧
      join ("/schemas" ++ "/" ++ "order.json") "order.json" = "schemas/order.json" ∧
      join ("/schemas" ++ "/" ++ "order.json") "order.json" ≠ "/schemas" ++ "/" ++ "order.json" ∧
      isStandalone (join ("/schemas" ++ "/" ++ "order.json") "order.json") = false := by
  have hname : IsName "order.json" := ⟨by decide, by decide, by decide, by decide⟩
  have hstandalone : isStandalone "/schemas" = true := by decide +kernel
  exact ⟨hname, hstandalone, by decide +kernel, (join_sibling hname hname "/schemas").2.2 hstandalone⟩

/-- Names of files do not mean siblings in all directories: not at a URL. -/
theorem not_forall_join_sibling :
    ¬ ∀ directory file name : String,
      IsClean directory ∧ directory ≠ "" ∨ isStandalone directory = true →
      IsName file → IsName name →
      join (directory ++ "/" ++ file) name = directory ++ "/" ++ name := by
  intro hall
  have hname : IsName "order.json" := ⟨by decide, by decide, by decide, by decide⟩
  have hstandalone : isStandalone "https://example.com" = true := by decide +kernel
  have heq := hall "https://example.com" "order.json" "order.json" (Or.inr hstandalone) hname hname
  revert heq
  decide +kernel

end Address

end ShapeGraph
