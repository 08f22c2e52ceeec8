import Mathlib.Data.String.Basic
import ShapeGraph.Proofs.Fetching
import ShapeGraph.Proofs.Termination

/-!
# Runs over a directory come to an end

A file can be found at more and more addresses, since dots and empty components make no difference.  But a
path that is too long is refused, so there are only finitely many; and the documents that can be found at
them are those in files and those that have been kept.

## Main definitions

* `DirectoryStore.OnlyFetched` — one store comes of another by fetching.
* `DirectoryStore.shortTexts` — the addresses that are not too long.
* `DirectoryStore.realm` — what a conversion can meet in a directory.

## Main results

* `DirectoryStore.serves_realm` — fetching finds nothing else.
* `DirectoryStore.convertAll_staysShallow` — a run without a limit never goes too deep.

## Design

Different addresses of one file stand for different documents.  The number of paths is proportional to the
number of addresses, but each of the documents has its steps counted only once.
-/

set_option autoImplicit false

namespace ShapeGraph

namespace DirectoryStore

variable {store later : DirectoryStore}

/-! ## Addresses -/

/-- All characters. -/
def characters : List Char := (List.range 0x110000).map Char.ofNat

theorem mem_characters (c : Char) : c ∈ characters := by
  refine List.mem_map.2 ⟨c.toNat, List.mem_range.2 ?_, Char.ofNat_toNat c⟩
  have hvalid := c.valid
  simp only [UInt32.isValidChar, Nat.isValidChar] at hvalid
  change c.val.toNat < _
  omega

theorem length_characters : characters.length = 0x110000 := by
  unfold characters
  rw [List.length_map, List.length_range]

/-- All texts of at most so many characters. -/
def shortTexts (n : Nat) : List String := (words characters n).map String.ofList

/-- A character is at least one byte. -/
theorem length_le_utf8Len (cs : List Char) : cs.length ≤ String.utf8Len cs := by
  induction cs with
  | nil => exact Nat.le_refl 0
  | cons c cs ih => exact Nat.add_le_add ih c.utf8Size_pos

theorem mem_shortTexts {s : String} {n : Nat} (h : s.utf8ByteSize ≤ n) : s ∈ shortTexts n := by
  refine List.mem_map.2 ⟨s.toList, mem_words (fun c _ => mem_characters c) ?_, String.ofList_toList⟩
  have hle := length_le_utf8Len s.toList
  rw [String.utf8Len_toList] at hle
  exact Nat.le_trans hle h

theorem length_shortTexts_le (n : Nat) : (shortTexts n).length ≤ addressBound n := by
  have hwords := length_words_le characters n
  have hcharacters : characters.length + 1 ≤ 2 ^ 21 := by
    rw [length_characters]
    decide
  generalize characters.length = count at hwords hcharacters
  unfold shortTexts addressBound
  rw [List.length_map]
  calc (words characters n).length
      ≤ (count + 1) ^ n := hwords
    _ ≤ (2 ^ 21) ^ n := Nat.pow_le_pow_left hcharacters n
    _ = Nat.pow 2 (21 * n) := (Nat.pow_mul 2 21 n).symm

/-! ## Documents -/

/-- The later store has the same files and base directory, and what it keeps besides what the other one
has kept are documents of files. -/
structure OnlyFetched (store later : DirectoryStore) : Prop where
  tree_eq : later.tree = store.tree
  base_eq : later.base = store.base
  added : ∀ address document, later.cache.find? address = some document →
    store.cache.find? address = some document ∨ store.documentAt address = .ok document

theorem OnlyFetched.refl (store : DirectoryStore) : OnlyFetched store store :=
  ⟨rfl, rfl, fun _ _ h => Or.inl h⟩

theorem OnlyFetched.documentAt_eq (h : OnlyFetched store later) (address : String) :
    later.documentAt address = store.documentAt address := by
  unfold documentAt
  rw [h.tree_eq, h.base_eq]

theorem OnlyFetched.fetch (h : OnlyFetched store later) (address : String) :
    OnlyFetched store (later.fetch address).2 := by
  have hgathers := later.fetch_gathers address
  refine ⟨hgathers.tree_eq.trans h.tree_eq, hgathers.base_eq.trans h.base_eq, ?_⟩
  intro other document hfind
  rcases hgathers.added other document hfind with hfind | ⟨path, hmem, hread⟩
  · exact h.added other document hfind
  · cases List.mem_singleton.1 hmem
    rw [← h.documentAt_eq]
    exact Or.inr hread

/-- What a file is refused for has nothing to do with levels. -/
theorem isDepthFault_of_documentOf {address : String} {content : Except FileFault String}
    {failure : Failure} (h : documentOf address content = .error failure) :
    failure.isDepthFault = false := by
  unfold documentOf at h
  split at h
  · cases h
    rfl
  · cases h
    rfl
  · split at h
    · cases h
      rfl
    · next document _ =>
      split at h
      · cases h
      · next hcheck =>
        cases h
        unfold checkDocument at hcheck
        cases document <;> cases hcheck <;> rfl

/-- What is known of a path at which a text is read. -/
theorem of_read_eq_ok {tree : FileTree} {path text : String} (h : tree.read path = .ok text) :
    path.utf8ByteSize ≤ FileTree.maxPathLength ∧ ∃ names, (names, .text text) ∈ tree.entries := by
  obtain ⟨names, hwalk, hread⟩ := exists_of_bind_eq_ok h
  obtain ⟨⟨⟩, hcheck, -⟩ := exists_of_bind_eq_ok hwalk
  constructor
  · unfold FileTree.checkPath at hcheck
    split at hcheck
    · cases hcheck
    · split at hcheck
      · cases hcheck
      · split at hcheck
        · cases hcheck
        · next hlength => exact Nat.le_of_not_lt hlength
  · have hentry : tree.entry? names = some (.text text) := by
      unfold FileTree.readAt at hread
      split at hread <;> cases hread
      assumption
    unfold FileTree.entry? at hentry
    split at hentry
    · cases hentry
    · obtain ⟨before, after, hentries, -⟩ := List.lookup_eq_some_iff.1 hentry
      rw [hentries]
      exact ⟨names, by simp⟩

/-- A path below a directory is no shorter than what is below. -/
theorem utf8ByteSize_le_joinPath (directory path : String) :
    path.utf8ByteSize ≤ (FileTree.joinPath directory path).utf8ByteSize := by
  unfold FileTree.joinPath
  split
  · exact Nat.le_refl _
  · split
    · rw [String.utf8ByteSize_append]
      omega
    · rw [String.utf8ByteSize_append]
      omega

/-- The document at an address is one of those that files hold, and the address is not too long. -/
theorem mem_of_documentAt {address : String} {document : Json}
    (h : store.documentAt address = .ok document) :
    address ∈ shortTexts FileTree.maxPathLength ∧ document ∈ store.documentsInFiles := by
  obtain ⟨-, text, hread, hparse⟩ := of_documentOf_eq_ok h
  obtain ⟨hlength, names, hmem⟩ := of_read_eq_ok hread
  refine ⟨mem_shortTexts (Nat.le_trans (utf8ByteSize_le_joinPath _ _) hlength), ?_⟩
  exact List.mem_filterMap.2 ⟨_, hmem, hparse⟩

/-! ## What can be met -/

/-- What a conversion can meet in a directory. -/
def realm (store : DirectoryStore) (root : Json) (rootAddress : String)
    (references : List Reference) : Realm where
  root := root
  rootAddress := rootAddress
  entries := (store.documentsInFiles.map fun document => ("", document)) ++ store.cache.entries
  found := shortTexts FileTree.maxPathLength ++ store.cache.keys
  references := references
  further := addressBound FileTree.maxPathLength
  found_le := by
    have hshort := length_shortTexts_le FileTree.maxPathLength
    have hkeys : store.cache.keys.length = store.cache.entries.length := List.length_map _
    rw [List.length_append, List.length_append, hkeys]
    omega

/-- Fetching finds nothing else. -/
theorem serves_realm (store : DirectoryStore) (root : Json) (rootAddress : String)
    (references : List Reference) :
    (store.realm root rootAddress references).Serves (OnlyFetched store) where
  keeps address h := h.fetch address
  found := by
    intro later address document h hfetch
    have hfound := (h.fetch address).added address document (find?_of_fetch hfetch)
    rcases hfound with hfind | hread
    · have hmem := SortedMap.find?_eq_some_iff.1 hfind
      refine ⟨List.mem_cons_of_mem _ (List.mem_append_right _ (List.mem_map.2 ⟨_, hmem, rfl⟩)), ?_⟩
      exact List.mem_cons_of_mem _ (List.mem_map.2 ⟨_, List.mem_append_right _ hmem, rfl⟩)
    · obtain ⟨hshort, hmem⟩ := mem_of_documentAt hread
      refine ⟨List.mem_cons_of_mem _ (List.mem_append_left _ hshort), ?_⟩
      have hentry := List.mem_map_of_mem (f := fun document : Json => ("", document)) hmem
      exact List.mem_cons_of_mem _
        (List.mem_map.2 ⟨_, List.mem_append_left store.cache.entries hentry, rfl⟩)
  allows := by
    intro later address failure h hfetch
    have hread := (later.fst_fetch address).symm.trans hfetch
    split at hread
    · cases hread
    · exact isDepthFault_of_documentOf hread

/-- A run without a limit never goes too deep. -/
theorem convertAll_staysShallow (store : DirectoryStore) (root : Json) (rootAddress : String)
    (topLevels : SortedMap String Reference) :
    Conversion.Meets (Conversion.convertAll none root rootAddress topLevels) (Progress.start store)
      (fun _ _ => True) (fun e _ => e.isDepthFault = false) :=
  Conversion.convertAll_staysWithin
    (serves_realm store root rootAddress (topLevels.entries.map Prod.snd)) topLevels rfl
    (OnlyFetched.refl store) rfl (Nat.le_refl _)

end DirectoryStore

end ShapeGraph
