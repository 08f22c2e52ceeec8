import ShapeGraph.Proofs.Directories
import ShapeGraph.Proofs.Listings
import ShapeGraph.Proofs.SourcesInStep

/-!
# Reading ahead

When a directory is read ahead, its files get their addresses from the paths that listing the directory
yields; when a document is fetched, its file is found by the path that its address gives from the base
directory.  If both lead to the same documents, then conversions do not notice that the directory has been
read ahead.  They do so if the path of the directory leads to the same place from the base directory, and
whenever it is that of the base directory itself or is given relative to it.  A path that only leads to the
directory from elsewhere need not: then documents are kept under addresses that do not belong to them.

## Main definitions

* `FileTree.WellNamed` — trees in which files and directories have proper names.
* `DirectoryStore.SameDocuments` — stores that give the same for every address.
* `DirectoryStore.Lists` — a file of a directory, by its names.
* `DirectoryStore.FindsAgain` — the addresses of files that are read ahead lead to their documents.
* `Conversion.convertFetched` — a run that starts with fetching the root document.
* `DirectoryStore.Indistinguishable` — no such run can tell two stores apart.

## Main results

* `DirectoryStore.sameDocuments_iff` — when reading ahead changes no document.
* `DirectoryStore.indistinguishable_iff` — runs tell stores apart just in case their documents differ.
* `DirectoryStore.indistinguishable_of_mayPreload` — when reading ahead changes no conversion.
* `DirectoryStore.not_forall_indistinguishable` — reading the base directory ahead under another path does.

## Design

Nothing is assumed about how the directory and the base directory are spelled, as long as one is at or
below the other.  What an address means is said by `FileTree.seenFrom`.
-/

set_option autoImplicit false

namespace ShapeGraph

/-- Fetch the root document, and then convert every reference that is named for it. -/
def Conversion.convertFetched {σ : Type} [DocumentSource σ] (limit : Option Nat) (address : String)
    (topLevels : Json → SortedMap String Reference) : Conversion σ Unit := do
  let document ← fetch address
  convertAll limit document address (topLevels document)

/-- Run from either progress, the conversion has the same outcome: the same result or failure, the same
graph, and the same paths bound to the same nodes. -/
def Conversion.EndsAlike {σ α : Type} (x : Conversion σ α) (s s' : Progress σ) : Prop :=
  Meets x s (fun a t => ∃ t', x s' = .ok a t' ∧ t'.graph = t.graph ∧ t'.bound = t.bound)
    fun e t => ∃ t', x s' = .error e t' ∧ t'.graph = t.graph ∧ t'.bound = t.bound

theorem Conversion.EndsAlike.succeeds_eq {σ α : Type} {x : Conversion σ α} {s s' : Progress σ}
    (h : x.EndsAlike s s') : succeeds x s' = succeeds x s := by
  unfold succeeds
  cases hrun : x s with
  | ok a t =>
    obtain ⟨t', hrun', -⟩ := h.of_eq_ok hrun
    rw [hrun']
  | error e t =>
    obtain ⟨t', hrun', -⟩ := h.of_eq_error hrun
    rw [hrun']

/-- The names of files and directories are neither empty nor dots, and have no slashes. -/
def FileTree.WellNamed (tree : FileTree) : Prop :=
  ∀ e ∈ tree.entries, ∀ name ∈ e.1, Address.IsName name

instance (tree : FileTree) : Decidable tree.WellNamed :=
  inferInstanceAs (Decidable (∀ e ∈ tree.entries, ∀ name ∈ e.1, Address.IsName name))

namespace DirectoryStore

variable {store later : DirectoryStore} {directory : String}

/-! ## The same documents -/

/-- Both stores give the same for every address. -/
def SameDocuments (store later : DirectoryStore) : Prop :=
  ∀ address, (later.fetch address).1 = (store.fetch address).1

theorem SameDocuments.symm (h : store.SameDocuments later) : later.SameDocuments store :=
  fun address => (h address).symm

/-- Documents that are added under addresses that lead to them change nothing. -/
theorem Gathers.sameDocuments {files : List (String × String)} (h : Gathers files store later)
    (hfiles : ∀ file ∈ files, store.cache.find? file.1 = none →
      store.documentAt file.1 = documentOf file.1 (store.tree.read file.2)) :
    store.SameDocuments later := by
  intro address
  rw [fst_fetch, fst_fetch]
  cases hlater : later.cache.find? address with
  | some document =>
    cases hstore : store.cache.find? address with
    | some found =>
      rw [h.kept address found hstore] at hlater
      cases hlater
      rfl
    | none =>
      rcases h.added address document hlater with hfind | ⟨path, hmem, hread⟩
      · rw [hstore] at hfind
        cases hfind
      · exact hread.symm.trans (hfiles _ hmem hstore).symm
  | none =>
    have hstore : store.cache.find? address = none := by
      cases hstore : store.cache.find? address with
      | some found =>
        rw [h.kept address found hstore] at hlater
        cases hlater
      | none => rfl
    rw [hstore]
    unfold documentAt
    rw [h.tree_eq, h.base_eq]

/-- A fetch does not change what any fetch gives. -/
theorem sameDocuments_fetch (store : DirectoryStore) (address : String) :
    store.SameDocuments (store.fetch address).2 := by
  refine (store.fetch_gathers address).sameDocuments fun file hfile _ => ?_
  rw [List.mem_singleton.1 hfile]
  rfl

/-- Stores with the same documents can stand for each other. -/
theorem interchangeable_sameDocuments : Interchangeable SameDocuments where
  fetch_eq address h := h address
  keeps {store later} address h other := by
    have hstore := store.sameDocuments_fetch address other
    have hlater := later.sameDocuments_fetch address other
    exact hlater.trans ((h other).trans hstore.symm)

/-! ## Files of a directory -/

/-- A file that is read ahead, with the names that lead to it from the directory. -/
structure Lists (store : DirectoryStore) (directory : String) (names : List String)
    (file : String × String) : Prop where
  names_ne_nil : names ≠ []
  are_names : ∀ name ∈ names, Address.IsName name
  directory_ne_empty : directory ≠ ""
  path_eq : file.2 = FileTree.joinPath directory (joinSegments '/' names)
  address_eq : file.1 = store.addressOf file.2
  isFile : store.tree.isFile file.2 = true

/-- The names on the way to a file that is listed are names. -/
theorem isName_of_mem_filesBelow {tree : FileTree} (hnames : tree.WellNamed)
    {place file : List String} (hfile : file ∈ tree.filesBelow place) :
    ∀ name ∈ file, Address.IsName name := by
  intro name hname
  obtain ⟨e, he, rfl⟩ := List.mem_map.1 (List.mem_mergeSort.1 hfile)
  exact hnames e (List.mem_filter.1 he).1 name (List.mem_of_mem_drop hname)

/-- Each file that is read ahead is in the directory, by some names. -/
theorem exists_lists (hnames : store.tree.WellNamed) (hdirectory : store.tree.isFile directory = false)
    {file : String × String} (hfile : file ∈ store.documentsBelow directory) :
    ∃ names, store.Lists directory names file := by
  unfold documentsBelow at hfile
  split at hfile
  · next start hwalk =>
    obtain ⟨path, hpath, rfl⟩ := List.mem_map.1 hfile
    obtain ⟨hpath, hselected⟩ := List.mem_filter.1 hpath
    have hisFile := (Bool.and_eq_true_iff.1 hselected).2
    obtain ⟨names, hlisted, rfl⟩ := List.mem_map.1 hpath
    have hare := isName_of_mem_filesBelow hnames hlisted
    -- No names lead away from the directory, but it is no file itself.
    have hne : names ≠ [] := by
      rintro rfl
      rw [List.foldl_nil, hdirectory] at hisFile
      cases hisFile
    refine ⟨names, hne, hare, ?_, FileTree.foldl_joinPath_names hne hare directory, rfl, hisFile⟩
    rintro rfl
    cases hwalk
  · exact absurd hfile List.not_mem_nil

namespace Lists

variable {names names' : List String} {file file' : String × String} {place : List String}

/-- The names are those of a relative path. -/
theorem glued (h : store.Lists directory names file) :
    segments '/' (joinSegments '/' names) = names ∧
      FileTree.isAbsolute (joinSegments '/' names) = false ∧
        FileTree.moving (joinSegments '/' names) = names :=
  FileTree.glued_relative h.names_ne_nil fun name hname =>
    ⟨(h.are_names name hname).moves, (h.are_names name hname).slash_free⟩

theorem components_eq (h : store.Lists directory names file) :
    FileTree.components file.2 = FileTree.components directory ++ names := by
  obtain ⟨-, hrelative, hmoving⟩ := h.glued
  rw [h.path_eq, FileTree.components_joinPath hrelative h.directory_ne_empty, hmoving]

/-- The path of the file leads below the directory. -/
theorem leadsBelow_path (h : store.Lists directory names file) :
    FileTree.LeadsBelow file.2 directory names := by
  obtain ⟨hsegments, hrelative, hmoving⟩ := h.glued
  rw [h.path_eq]
  refine ⟨FileTree.isAbsolute_joinPath hrelative directory, ?_, ?_⟩
  · rw [FileTree.moving_joinPath hrelative, hmoving]
  · rw [FileTree.getLast?_segments_joinPath hrelative, hsegments]

variable (hbelow : store.tree.AtOrBelow store.base directory)

include hbelow

/-- The address of the file leads below the directory, too, as it is seen from the base directory. -/
theorem leadsBelow_address (h : store.Lists directory names file) :
    FileTree.LeadsBelow (FileTree.joinPath store.base file.1)
      (FileTree.seenFrom store.base directory) names := by
  have hafter : FileTree.componentsAfter store.base file.2 =
      FileTree.componentsAfter store.base directory ++ names := by
    refine FileTree.componentsAfter_append h.components_eq fun hbefore => ?_
    rw [h.components_eq] at hbefore
    exact hbelow.prefix_of_append h.directory_ne_empty h.are_names hbefore
  have hkept : names.filter (· ≠ ".") = names :=
    FileTree.filter_ne_dot fun name hname => (h.are_names name hname).moves
  rw [h.address_eq, addressOf, hafter, List.filter_append, hkept]
  exact FileTree.leadsBelow_address h.names_ne_nil h.are_names

/-- Different files get different addresses. -/
theorem eq_of_address_eq (h : store.Lists directory names file)
    (h' : store.Lists directory names' file') (haddress : file.1 = file'.1) : file = file' := by
  have hmoving := (h.leadsBelow_address hbelow).moving_eq
  rw [haddress, (h'.leadsBelow_address hbelow).moving_eq] at hmoving
  refine Prod.ext haddress ?_
  rw [h.path_eq, h'.path_eq, List.append_cancel_left hmoving]

/-- If the directory is at the same place as it is seen from the base directory, then the address leads to
the file. -/
theorem read_address (h : store.Lists directory names file)
    (hplace : store.tree.walk directory = .ok place)
    (hseen : store.tree.walk (FileTree.seenFrom store.base directory) = .ok place)
    (hcheck : FileTree.checkPath (FileTree.joinPath store.base file.1) = .ok ()) :
    store.tree.read (FileTree.joinPath store.base file.1) = store.tree.read file.2 := by
  obtain ⟨hcheck', -⟩ := FileTree.exists_walk_of_isFile h.isFile
  unfold FileTree.read
  rw [(h.leadsBelow_address hbelow).walk_eq h.are_names hcheck hseen,
    h.leadsBelow_path.walk_eq h.are_names hcheck' hplace]

end Lists

/-- The path is that of the base directory or goes on it, whether or not it has a slash at the end. -/
def GivenFrom (base directory : String) : Prop :=
  ∃ relative, FileTree.isAbsolute relative = false ∧
    FileTree.front directory = FileTree.front (FileTree.joinPath base relative)

theorem givenFrom_self (base : String) : GivenFrom base base := by
  refine ⟨"", rfl, ?_⟩
  rw [FileTree.joinPath_of_relative rfl, String.append_empty, FileTree.front_front]

/-- The address of a file in such a directory leads to this file. -/
theorem Lists.read_address_of_givenFrom {names : List String} {file : String × String}
    (h : store.Lists directory names file) (hgiven : GivenFrom store.base directory) :
    store.tree.read (FileTree.joinPath store.base file.1) = store.tree.read file.2 := by
  obtain ⟨-, hrelative, -⟩ := h.glued
  obtain ⟨relative, hfrom, hfront⟩ := hgiven
  have hpath : file.2 = FileTree.joinPath store.base
      (FileTree.joinPath relative (joinSegments '/' names)) := by
    rw [h.path_eq, ← FileTree.joinPath_joinPath hfrom hrelative,
      FileTree.joinPath_of_relative hrelative, hfront, ← FileTree.joinPath_of_relative hrelative]
  have hwhole := (FileTree.isAbsolute_joinPath hrelative relative).trans hfrom
  have hisFile := h.isFile
  rw [hpath] at hisFile
  rw [h.address_eq, hpath, addressOf, FileTree.componentsAfter_joinPath hwhole]
  exact FileTree.read_joinPath_clean hwhole hisFile

/-! ## Reading ahead -/

/-- The address of each file that is read ahead leads to the document in it. -/
def FindsAgain (store : DirectoryStore) (directory : String) : Prop :=
  ∀ file ∈ store.documentsBelow directory, store.cache.find? file.1 = none →
    store.documentAt file.1 = documentOf file.1 (store.tree.read file.2)

/-- Files are read ahead in a directory that is there. -/
theorem exists_walk_of_mem {file : String × String} (h : file ∈ store.documentsBelow directory) :
    ∃ place, store.tree.walk directory = .ok place := by
  unfold documentsBelow at h
  split at h
  · next place hwalk => exact ⟨place, hwalk⟩
  · exact absurd h List.not_mem_nil

/-- Addresses that lead to the files lead to their documents. -/
theorem findsAgain_of_read (hnames : store.tree.WellNamed)
    (hdirectory : store.tree.isFile directory = false)
    (h : ∀ names file, store.Lists directory names file → file ∈ store.documentsBelow directory →
      store.tree.read (FileTree.joinPath store.base file.1) = store.tree.read file.2) :
    store.FindsAgain directory := by
  intro file hfile _
  obtain ⟨names, hlists⟩ := exists_lists hnames hdirectory hfile
  exact congrArg (documentOf file.1) (h names file hlists hfile)

/-- If the addresses of files lead to their documents, then reading ahead changes no document, also if it
fails. -/
theorem FindsAgain.sameDocuments {count : Except Failure Nat} (h : store.FindsAgain directory)
    (hpreload : store.MayPreload directory (count, later)) : store.SameDocuments later := by
  obtain ⟨files, hperm, hload⟩ := hpreload
  have hgathers := store.loadAll_gathers files 0
  rw [hload] at hgathers
  exact hgathers.sameDocuments fun file hfile => h file (hperm.mem_iff.1 hfile)

/-- A directory at or below the base directory has been read ahead, in whichever order its files are listed.
This has changed no document just in case the addresses of its files lead to their documents. -/
theorem sameDocuments_iff {count : Nat} (hnames : store.tree.WellNamed)
    (hbelow : store.tree.AtOrBelow store.base directory)
    (hdirectory : store.tree.isFile directory = false)
    (hpreload : store.MayPreload directory (.ok count, later)) :
    store.SameDocuments later ↔ store.FindsAgain directory := by
  refine ⟨fun hsame file hfile hfree => ?_, fun h => h.sameDocuments hpreload⟩
  obtain ⟨names, hfile'⟩ := exists_lists hnames hdirectory hfile
  obtain ⟨files, hperm, hload⟩ := hpreload
  have hgathers := store.loadAll_gathers files 0
  have hloads : (store.loadAll files 0).1 = .ok count := by rw [hload]
  have hkept := find?_of_loadAll hloads file (hperm.mem_iff.2 hfile)
  rw [hload] at hgathers hkept
  obtain ⟨document, hdocument⟩ := hkept
  have hfetch := hsame file.1
  rw [fst_fetch, fst_fetch, hdocument, hfree] at hfetch
  rcases hgathers.added file.1 document hdocument with hfind | ⟨path, hmem, hread⟩
  · rw [hfree] at hfind
    cases hfind
  · obtain ⟨others, hother⟩ := exists_lists hnames hdirectory (hperm.mem_iff.1 hmem)
    have heq := hother.eq_of_address_eq hbelow hfile' rfl
    rw [← heq]
    exact hfetch.symm.trans hread.symm

/-! ## Conversions -/

open Conversion

section Runs

variable (root : Json) (rootAddress : String) (topLevels : SortedMap String Reference)

/-- The levels of a run without a limit. -/
def unlimitedLevels (store : DirectoryStore) : Nat :=
  levelsLeft none (extentOf store root rootAddress (topLevels.entries.map Prod.snd)) 0

/-- Runs without a limit stay in step if the second one has no fewer levels: the first one does not use its
own up. -/
theorem convertAll_sameDocuments_of_le (h : store.SameDocuments later)
    (hle : unlimitedLevels root rootAddress topLevels store ≤
      unlimitedLevels root rootAddress topLevels later) :
    Lockstep (upToSource SameDocuments False) (convertAll none root rootAddress topLevels)
      (convertAll none root rootAddress topLevels) (Progress.start store) (Progress.start later)
      fun _ => (upToSource SameDocuments False).relates := by
  have hs : (Progress.start store).EqUpToSource SameDocuments (Progress.start later) := ⟨later, h, rfl⟩
  have hrun : Lockstep (upToSource SameDocuments True) (convertAll none root rootAddress topLevels)
      (convertAll none root rootAddress topLevels) (Progress.start store) (Progress.start later)
      fun _ => (upToSource SameDocuments True).relates :=
    convertAll_upToSource interchangeable_sameDocuments hs ⟨hle, fun hcut => absurd trivial hcut⟩
  exact hrun.uncut fun e t ht =>
    (convertAll_staysShallow store root rootAddress topLevels).of_eq_error ht

/-- Runs from stores with the same documents stay in step.

**Proof sketch.** With a limit both have the same levels left.  Without one they may have different numbers
of levels, and the one with more of them stays in step with the other. -/
theorem convertAll_sameDocuments (h : store.SameDocuments later) (limit : Option Nat) :
    Lockstep (upToSource SameDocuments False) (convertAll limit root rootAddress topLevels)
      (convertAll limit root rootAddress topLevels) (Progress.start store) (Progress.start later)
      fun _ => (upToSource SameDocuments False).relates := by
  cases limit with
  | some l =>
    have hs : (Progress.start store).EqUpToSource SameDocuments (Progress.start later) :=
      ⟨later, h, rfl⟩
    exact convertAll_upToSource interchangeable_sameDocuments hs ⟨Nat.le_refl _, fun _ => ⟨rfl, rfl⟩⟩
  | none =>
    rcases Nat.le_total (unlimitedLevels root rootAddress topLevels store)
        (unlimitedLevels root rootAddress topLevels later) with hle | hle
    · exact convertAll_sameDocuments_of_le root rootAddress topLevels h hle
    · exact (convertAll_sameDocuments_of_le root rootAddress topLevels h.symm hle).symm
        fun _ _ => SameDocuments.symm

end Runs

theorem fetch_start (store : DirectoryStore) (address : String) :
    Conversion.fetch address (Progress.start store) =
      ofResult (store.fetch address).1 (Progress.start (store.fetch address).2) :=
  rfl

/-- Fetching the root document and converting what is named for it stays in step, too. -/
theorem convertFetched_sameDocuments (h : store.SameDocuments later) (limit : Option Nat)
    (address : String) (topLevels : Json → SortedMap String Reference) :
    Lockstep (upToSource SameDocuments False) (convertFetched limit address topLevels)
      (convertFetched limit address topLevels) (Progress.start store) (Progress.start later)
      fun _ => (upToSource SameDocuments False).relates := by
  have hagree : (store.fetch address).2.SameDocuments (later.fetch address).2 :=
    interchangeable_sameDocuments.keeps address h
  have hfetch : Lockstep (upToSource SameDocuments False) (Conversion.fetch address)
      (Conversion.fetch address) (Progress.start store) (Progress.start later) fun _ t t' =>
        t = Progress.start (store.fetch address).2 ∧
          t' = Progress.start (later.fetch address).2 := by
    unfold Lockstep Meets
    rw [fetch_start, fetch_start, h address]
    exact Lockstep.ofResult (fun _ _ => ⟨rfl, rfl⟩) fun _ _ => ⟨_, hagree, rfl⟩
  refine hfetch.seq ?_
  rintro document _ _ ⟨rfl, rfl⟩
  exact convertAll_sameDocuments document address (topLevels document) hagree limit

/-! ## Telling stores apart -/

/-- No run that starts with fetching its root document tells the stores apart. -/
def Indistinguishable (store later : DirectoryStore) : Prop :=
  ∀ limit address topLevels, (convertFetched limit address topLevels).EndsAlike
    (Progress.start store) (Progress.start later)

theorem SameDocuments.indistinguishable (h : store.SameDocuments later) :
    store.Indistinguishable later := by
  intro limit address topLevels
  refine Meets.mono (convertFetched_sameDocuments h limit address topLevels) ?_ ?_
  · rintro ⟨⟩ s ⟨s', hrun, documents, -, rfl⟩
    exact ⟨_, hrun, rfl, rfl⟩
  · rintro e s (⟨hfalse, -⟩ | ⟨s', hrun, documents, -, rfl⟩)
    · exact hfalse.elim
    · exact ⟨_, hrun, rfl, rfl⟩

section Fetched

variable {address : String} (limit : Option Nat) (topLevels : Json → SortedMap String Reference)

theorem convertFetched_of_ok {document : Json} (h : (store.fetch address).1 = .ok document) :
    convertFetched limit address topLevels (Progress.start store) =
      convertAll limit document address (topLevels document) (Progress.start (store.fetch address).2) :=
  bind_eq_of_ok (by rw [fetch_start, h]; rfl)

theorem convertFetched_of_error {e : Failure} (h : (store.fetch address).1 = .error e) :
    convertFetched limit address topLevels (Progress.start store) =
      .error e (Progress.start (store.fetch address).2) :=
  bind_eq_of_error (by rw [fetch_start, h]; rfl) _

end Fetched

/-- What is no place cannot be had of any document. -/
def unaddressable (address : String) : SortedMap String Reference :=
  .ofList [("", (Reference.root address).push .object)]

theorem convertAll_unaddressable (limit : Option Nat) (document : Json) (address : String)
    (s : Progress DirectoryStore) :
    convertAll limit document address (unaddressable address) s =
      .error (.unaddressable ((Reference.root address).push .object) .object) s := by
  have hplace : topLevelPlace document address ((Reference.root address).push .object) s =
      .error (.unaddressable ((Reference.root address).push .object) .object) s := by
    unfold topLevelPlace
    rw [if_pos (show ((Reference.root address).push .object).address = address from rfl)]
    rfl
  exact bind_eq_of_error (bind_eq_of_error hplace _) _

open Classical in
/-- Nothing is asked of the one document, and what cannot be had of every other. -/
noncomputable def telling (document : Json) (address : String) (other : Json) :
    SortedMap String Reference :=
  if other = document then ∅ else unaddressable address

/-- A run that asks so succeeds just in case its root document is the one. -/
theorem succeeds_telling_iff {document : Json} {address : String} :
    Conversion.succeeds (convertFetched none address (telling document address))
        (Progress.start store) = true ↔
      (store.fetch address).1 = .ok document := by
  unfold Conversion.succeeds
  cases hfetch : (store.fetch address).1 with
  | error e =>
    rw [convertFetched_of_error none _ hfetch]
    exact iff_of_false Bool.false_ne_true (by simp)
  | ok found =>
    rw [convertFetched_of_ok none _ hfetch]
    unfold telling
    by_cases h : found = document
    · rw [if_pos h]
      exact iff_of_true rfl (congrArg _ h)
    · rw [if_neg h, convertAll_unaddressable]
      exact iff_of_false Bool.false_ne_true fun heq => h (Except.ok.inj heq)

/-- Runs tell stores apart just in case their documents differ. -/
theorem indistinguishable_iff : store.Indistinguishable later ↔ store.SameDocuments later := by
  refine ⟨fun h address => ?_, SameDocuments.indistinguishable⟩
  cases hstore : (store.fetch address).1 with
  | ok document =>
    have halike := (h none address (telling document address)).succeeds_eq
    rw [← succeeds_telling_iff, halike, succeeds_telling_iff]
    exact hstore
  | error e =>
    cases hlater : (later.fetch address).1 with
    | ok document =>
      have halike := (h none address (telling document address)).succeeds_eq
      rw [← succeeds_telling_iff, halike, succeeds_telling_iff, hstore] at hlater
      cases hlater
    | error e' =>
      have halike := (h none address fun _ => ∅).of_eq_error (convertFetched_of_error none _ hstore)
      obtain ⟨s', hrun, -, -⟩ := halike
      rw [convertFetched_of_error none _ hlater] at hrun
      cases hrun
      rfl

/-- Reading ahead in the order in which the files are listed here is one way to do it. -/
theorem exists_mayPreload (store : DirectoryStore) (directory : String)
    (h : (store.preloadAt directory).1.isOk = true) :
    ∃ count, store.MayPreload directory (.ok count, (store.preloadAt directory).2) := by
  cases hcount : (store.preloadAt directory).1 with
  | ok count => exact ⟨count, _, List.Perm.refl _, Prod.ext hcount rfl⟩
  | error e =>
    rw [hcount] at h
    cases h

/-! ## Main result -/

/-- When reading ahead changes no conversion.  Take any files with proper names, any store over them,
whatever it has kept, and any directory at or below its base directory, however both are spelled.  Read this
directory ahead, with its files listed in any order.  No run that starts with fetching its root document can
tell the difference just in case the addresses of the files lead to their documents.  They do so if the
directory is at the same place as it is seen from the base directory, unless paths get too long; and they do
so, however long, if the path of the directory goes on that of the base directory. -/
theorem indistinguishable_of_mayPreload {count : Nat} (hnames : store.tree.WellNamed)
    (hdirectory : store.tree.isFile directory = false)
    (hbelow : store.tree.AtOrBelow store.base directory)
    (hpreload : store.MayPreload directory (.ok count, later)) :
    (store.Indistinguishable later ↔ store.FindsAgain directory) ∧
      (store.tree.walk (FileTree.seenFrom store.base directory) = store.tree.walk directory →
        (∀ file ∈ store.documentsBelow directory,
          FileTree.checkPath (FileTree.joinPath store.base file.1) = .ok ()) →
        store.Indistinguishable later) ∧
      (GivenFrom store.base directory → store.Indistinguishable later) := by
  have hexact : store.Indistinguishable later ↔ store.FindsAgain directory :=
    indistinguishable_iff.trans (sameDocuments_iff hnames hbelow hdirectory hpreload)
  refine ⟨hexact, fun hseen hcheck => ?_, fun hgiven => ?_⟩
  · rw [hexact]
    refine findsAgain_of_read hnames hdirectory fun names file hlists hfile => ?_
    obtain ⟨place, hplace⟩ := exists_walk_of_mem hfile
    exact hlists.read_address hbelow hplace (hseen.trans hplace) (hcheck file hfile)
  · rw [hexact]
    exact findsAgain_of_read hnames hdirectory fun names file hlists _ =>
      hlists.read_address_of_givenFrom hgiven

/-- Two documents, one of them in a directory of its own. -/
def orderTree : FileTree where
  here := ["work"]
  entries := [(["work", "order.json"], .text "true"), (["work", "shared"], .directory),
    (["work", "shared", "id.json"], .text "true")]

/-- The inner directory can be read ahead as the base directory, and by its name from the outer one. -/
theorem indistinguishable_of_mayPreload_order :
    let inner := ofBase orderTree "shared"
    let outer := ofBase orderTree "."
    (inner.preloadAt "shared").2.addresses = ["id.json"] ∧
      inner.Indistinguishable (inner.preloadAt "shared").2 ∧
        (outer.preloadAt "shared").2.addresses = ["shared/id.json"] ∧
          outer.Indistinguishable (outer.preloadAt "shared").2 := by
  intro inner outer
  have hnames : orderTree.WellNamed := by decide +kernel
  have hdirectory : orderTree.isFile "shared" = false := by decide +kernel
  obtain ⟨_, hinner⟩ := inner.exists_mayPreload "shared" (by decide +kernel)
  obtain ⟨_, houter⟩ := outer.exists_mayPreload "shared" (by decide +kernel)
  obtain ⟨-, -, hgiven⟩ :=
    indistinguishable_of_mayPreload hnames hdirectory (List.prefix_refl _) hinner
  obtain ⟨-, hspelled, -⟩ :=
    indistinguishable_of_mayPreload hnames hdirectory (by decide +kernel) houter
  exact ⟨by decide +kernel, hgiven (givenFrom_self "shared"), by decide +kernel,
    hspelled (by decide +kernel) (by decide +kernel)⟩

/-- A document in a directory. -/
def schemasTree : FileTree where
  here := ["work"]
  entries := [(["work", "schemas"], .directory), (["work", "schemas", "id.json"], .text "true")]

/-- Reading the base directory ahead under another path changes conversions. -/
theorem not_forall_indistinguishable :
    ¬ ∀ (store later : DirectoryStore) (directory : String) (count : Nat), store.tree.WellNamed →
      store.tree.isFile directory = false → store.tree.AtOrBelow store.base directory →
        store.MayPreload directory (.ok count, later) → store.Indistinguishable later := by
  intro h
  have hnames : schemasTree.WellNamed := by decide +kernel
  let store := ofBase schemasTree "./schemas"
  obtain ⟨count, hpreload⟩ := store.exists_mayPreload "schemas" (by decide +kernel)
  have hbelow : schemasTree.AtOrBelow "./schemas" "schemas" := by decide +kernel
  have halike := h store _ "schemas" count hnames (by decide +kernel) hbelow hpreload none
    "schemas/id.json" fun _ => ∅
  have hdiffers : Conversion.succeeds (convertFetched none "schemas/id.json" fun _ => ∅)
      (Progress.start (store.preloadAt "schemas").2) ≠
        Conversion.succeeds (convertFetched none "schemas/id.json" fun _ => ∅)
          (Progress.start store) := by decide +kernel
  exact hdiffers halike.succeeds_eq

end DirectoryStore

end ShapeGraph
