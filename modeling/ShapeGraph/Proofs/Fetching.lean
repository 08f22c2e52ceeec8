import Mathlib.Logic.Relation
import ShapeGraph.Documents.Directory
import ShapeGraph.Proofs.Membership

/-!
# Documents are fetched once

A directory of documents keeps what it has read.  Whatever is read afterwards, one document at a time or
a whole directory ahead, and whatever becomes of the files, the document at an address stays the one that
was found there first.

## Main definitions

* `DirectoryStore.MayPreload` — what can come of reading a directory ahead, in whichever order its files
  are listed.
* `DirectoryStore.Step`, `DirectoryStore.Later` — what a store can go through.
* `DirectoryStore.Gathers` — documents are added from files, and none is lost.
* `DirectoryStore.Keeps` — something holds of all documents that are kept.

## Main results

* `DirectoryStore.fetch_gathers`, `DirectoryStore.loadAll_gathers` — reading only adds documents.
* `DirectoryStore.fetch_once` — what holds over every history of a store.

## Design

Between two calls the files may be changed at will, so nothing is said about where a document that is kept
came from once its file has had time to change.
-/

set_option autoImplicit false

namespace ShapeGraph

namespace DirectoryStore

variable {store later latest : DirectoryStore}

/-! ## Histories -/

/-- The result of reading ahead and the store afterwards, for some order in which the files are listed. -/
def MayPreload (store : DirectoryStore) (directory : String)
    (outcome : Except Failure Nat × DirectoryStore) : Prop :=
  ∃ files, files.Perm (store.documentsBelow directory) ∧ store.loadAll files 0 = outcome

/-- What can happen to a store: a document is fetched, a directory is read ahead, or the files are changed
from outside. -/
inductive Step : DirectoryStore → DirectoryStore → Prop
  | fetch (store : DirectoryStore) (address : String) : Step store (store.fetch address).2
  | preload {store : DirectoryStore} {directory : String}
      {outcome : Except Failure Nat × DirectoryStore} (h : store.MayPreload directory outcome) :
      Step store outcome.2
  | outside (store : DirectoryStore) (tree : FileTree) : Step store { store with tree := tree }

/-- One store comes after another. -/
def Later : DirectoryStore → DirectoryStore → Prop := Relation.ReflTransGen Step

/-- A store that can come of a base directory. -/
def CanReach (tree : FileTree) (base : String) (store : DirectoryStore) : Prop :=
  Later (ofBase tree base) store

/-! ## Reading -/

/-- The document that the file at an address holds. -/
def documentAt (store : DirectoryStore) (address : String) : Except Failure Json :=
  documentOf address (store.tree.read (FileTree.joinPath store.base address))

/-- What a fetch does: it finds the document, reads it from its file, or fails and changes nothing. -/
theorem fetch_cases (store : DirectoryStore) (address : String) :
    (∃ document, store.cache.find? address = some document ∧
        store.fetch address = (.ok document, store)) ∨
      store.cache.find? address = none ∧
        ((∃ document, store.documentAt address = .ok document ∧ store.fetch address =
            (.ok document, { store with cache := store.cache.insert address document })) ∨
          ∃ failure, store.documentAt address = .error failure ∧
            store.fetch address = (.error failure, store)) := by
  cases hfind : store.cache.find? address with
  | some document =>
    refine Or.inl ⟨document, rfl, ?_⟩
    unfold fetch
    rw [hfind]
  | none =>
    have hfetch : store.fetch address = store.keep address (store.documentAt address) := by
      unfold fetch
      rw [hfind]
      rfl
    refine Or.inr ⟨rfl, ?_⟩
    cases hdocument : store.documentAt address with
    | ok document => exact Or.inl ⟨document, rfl, by rw [hfetch, hdocument]; rfl⟩
    | error failure => exact Or.inr ⟨failure, rfl, by rw [hfetch, hdocument]; rfl⟩

/-- What is fetched has been kept, or is what its file holds. -/
theorem fst_fetch (store : DirectoryStore) (address : String) : (store.fetch address).1 =
    match store.cache.find? address with
    | some document => .ok document
    | none => store.documentAt address := by
  rcases store.fetch_cases address with
    ⟨found, hfind, hfetch⟩ | ⟨hfree, ⟨document, hread, hfetch⟩ | ⟨failure, hread, hfetch⟩⟩
  · rw [hfetch, hfind]
  · rw [hfetch, hfree, hread]
  · rw [hfetch, hfree, hread]

/-- A document that is kept is the one that is fetched. -/
theorem fetch_of_find? {address : String} {document : Json}
    (h : store.cache.find? address = some document) :
    store.fetch address = (.ok document, store) := by
  unfold fetch
  rw [h]

/-- A document that is fetched is kept. -/
theorem find?_of_fetch {address : String} {document : Json}
    (h : (store.fetch address).1 = .ok document) :
    (store.fetch address).2.cache.find? address = some document := by
  rcases store.fetch_cases address with ⟨found, hfind, hfetch⟩ | ⟨-, ⟨read, -, hfetch⟩ | ⟨e, -, hfetch⟩⟩
  · rw [hfetch] at h ⊢
    rw [← Except.ok.inj h]
    exact hfind
  · rw [hfetch] at h ⊢
    rw [← Except.ok.inj h]
    exact (SortedMap.find?_insert _ _ _ _).trans (if_pos rfl)
  · rw [hfetch] at h
    cases h

/-- A fetch that fails changes nothing. -/
theorem snd_fetch_of_error {address : String} {failure : Failure}
    (h : (store.fetch address).1 = .error failure) : (store.fetch address).2 = store := by
  rcases store.fetch_cases address with ⟨found, -, hfetch⟩ | ⟨-, ⟨read, -, hfetch⟩ | ⟨e, -, hfetch⟩⟩
  · rw [hfetch]
  · rw [hfetch] at h
    cases h
  · rw [hfetch]

/-- The value is an object or a boolean. -/
def IsDocument (document : Json) : Prop := document.isObject = true ∨ ∃ b, document = .bool b

/-- What is known of a document that is read from a file. -/
theorem of_documentOf_eq_ok {address : String} {content : Except FileFault String} {document : Json}
    (h : documentOf address content = .ok document) :
    IsDocument document ∧
      ∃ text, content = .ok text ∧ Json.parse? Json.nestingLimit text = some document := by
  unfold documentOf at h
  split at h
  · cases h
  · cases h
  · next text =>
    split at h
    · cases h
    · next found hparse =>
      split at h
      · next hcheck =>
        cases h
        refine ⟨?_, text, rfl, hparse⟩
        cases document with
        | bool b => exact Or.inr ⟨b, rfl⟩
        | obj members => exact Or.inl rfl
        | _ => cases hcheck
      · cases h

/-! ## Gathering documents -/

/-- From one store to the other, documents have been added from files at the given paths, under the
addresses that go with them.  Files and base directory are the same. -/
structure Gathers (files : List (String × String)) (store later : DirectoryStore) : Prop where
  tree_eq : later.tree = store.tree
  base_eq : later.base = store.base
  kept : ∀ address document, store.cache.find? address = some document →
    later.cache.find? address = some document
  added : ∀ address document, later.cache.find? address = some document →
    store.cache.find? address = some document ∨
      ∃ path, (address, path) ∈ files ∧ documentOf address (store.tree.read path) = .ok document

namespace Gathers

variable {files more : List (String × String)}

theorem refl (files : List (String × String)) (store : DirectoryStore) : Gathers files store store :=
  ⟨rfl, rfl, fun _ _ h => h, fun _ _ h => Or.inl h⟩

theorem trans (h : Gathers files store later) (h' : Gathers files later latest) :
    Gathers files store latest where
  tree_eq := h'.tree_eq.trans h.tree_eq
  base_eq := h'.base_eq.trans h.base_eq
  kept address document hfind := h'.kept address document (h.kept address document hfind)
  added address document hfind := by
    rcases h'.added address document hfind with hfind | hread
    · exact h.added address document hfind
    · rw [h.tree_eq] at hread
      exact Or.inr hread

theorem mono (h : Gathers files store later) (hsubset : ∀ file ∈ files, file ∈ more) :
    Gathers more store later where
  tree_eq := h.tree_eq
  base_eq := h.base_eq
  kept := h.kept
  added address document hfind :=
    (h.added address document hfind).imp_right fun ⟨path, hmem, hread⟩ =>
      ⟨path, hsubset _ hmem, hread⟩

/-- A document that is not there yet is added. -/
theorem insert {address path : String} {document : Json}
    (hfree : store.cache.find? address = none)
    (hread : documentOf address (store.tree.read path) = .ok document)
    (hmem : (address, path) ∈ files) :
    Gathers files store { store with cache := store.cache.insert address document } where
  tree_eq := rfl
  base_eq := rfl
  kept other found hfind := by
    refine (SortedMap.find?_insert _ _ _ _).trans ((if_neg ?_).trans hfind)
    rintro rfl
    rw [hfree] at hfind
    cases hfind
  added other found hfind := by
    rw [SortedMap.find?_insert] at hfind
    split at hfind
    · next heq =>
      subst heq
      cases hfind
      exact Or.inr ⟨path, hmem, hread⟩
    · exact Or.inl hfind

end Gathers

/-- Fetching only adds the document that is fetched. -/
theorem fetch_gathers (store : DirectoryStore) (address : String) :
    Gathers [(address, FileTree.joinPath store.base address)] store (store.fetch address).2 := by
  rcases store.fetch_cases address with
    ⟨found, -, hfetch⟩ | ⟨hfree, ⟨document, hread, hfetch⟩ | ⟨failure, -, hfetch⟩⟩
  · rw [hfetch]
    exact .refl _ store
  · rw [hfetch]
    exact .insert hfree hread List.mem_cons_self
  · rw [hfetch]
    exact .refl _ store

/-- What happens to the first of some files that are read ahead: it is known already, it is read, or it
ends the reading. -/
theorem loadAll_cons_cases (store : DirectoryStore) (address path : String)
    (rest : List (String × String)) (count : Nat) :
    (∃ document, store.cache.find? address = some document ∧
        store.loadAll ((address, path) :: rest) count = store.loadAll rest count) ∨
      store.cache.find? address = none ∧
        ((∃ document, documentOf address (store.tree.read path) = .ok document ∧
            store.loadAll ((address, path) :: rest) count =
              loadAll { store with cache := store.cache.insert address document } rest (count + 1)) ∨
          ∃ failure, documentOf address (store.tree.read path) = .error failure ∧
            store.loadAll ((address, path) :: rest) count = (.error failure, store)) := by
  have hcontains : store.cache.contains address = (store.cache.find? address).isSome := rfl
  rw [loadAll, hcontains]
  cases store.cache.find? address with
  | some document => exact Or.inl ⟨document, rfl, rfl⟩
  | none =>
    refine Or.inr ⟨rfl, ?_⟩
    cases documentOf address (store.tree.read path) with
    | ok document => exact Or.inl ⟨document, rfl, rfl⟩
    | error failure => exact Or.inr ⟨failure, rfl, rfl⟩

/-- Reading ahead only adds documents of the files that are read, also when it fails. -/
theorem loadAll_gathers (store : DirectoryStore) (files : List (String × String)) (count : Nat) :
    Gathers files store (store.loadAll files count).2 := by
  induction files generalizing store count with
  | nil => exact .refl [] store
  | cons file rest ih =>
    obtain ⟨address, path⟩ := file
    have hrest : ∀ f ∈ rest, f ∈ (address, path) :: rest := fun f hf => List.mem_cons_of_mem _ hf
    rcases store.loadAll_cons_cases address path rest count with
      ⟨document, -, hload⟩ | ⟨hfree, ⟨document, hread, hload⟩ | ⟨failure, -, hload⟩⟩
    · rw [hload]
      exact (ih store count).mono hrest
    · rw [hload]
      exact (Gathers.insert hfree hread List.mem_cons_self).trans ((ih _ _).mono hrest)
    · rw [hload]
      exact .refl _ store

/-- After reading ahead without a failure, there is a document at the address of each file. -/
theorem find?_of_loadAll {files : List (String × String)} {count total : Nat}
    (h : (store.loadAll files count).1 = .ok total) :
    ∀ file ∈ files, ∃ document,
      (store.loadAll files count).2.cache.find? file.1 = some document := by
  induction files generalizing store count with
  | nil => exact fun file hfile => absurd hfile List.not_mem_nil
  | cons file rest ih =>
    obtain ⟨address, path⟩ := file
    rcases store.loadAll_cons_cases address path rest count with
      ⟨document, hfind, hload⟩ | ⟨-, ⟨document, -, hload⟩ | ⟨failure, -, hload⟩⟩
    · rw [hload] at h ⊢
      exact List.forall_mem_cons.2
        ⟨⟨document, (loadAll_gathers store rest count).kept _ _ hfind⟩, ih h⟩
    · rw [hload] at h ⊢
      refine List.forall_mem_cons.2 ⟨⟨document, ?_⟩, ih h⟩
      exact (loadAll_gathers _ rest _).kept _ _ ((SortedMap.find?_insert _ _ _ _).trans (if_pos rfl))
    · rw [hload] at h
      cases h

/-! ## Every history -/

/-- A step of a history keeps all documents. -/
theorem Step.kept (h : Step store later) {address : String} {document : Json}
    (hfind : store.cache.find? address = some document) :
    later.cache.find? address = some document := by
  cases h with
  | fetch other => exact (store.fetch_gathers other).kept address document hfind
  | preload h =>
    obtain ⟨files, -, rfl⟩ := h
    exact (store.loadAll_gathers files 0).kept address document hfind
  | outside tree => exact hfind

/-- A history keeps all documents. -/
theorem Later.kept (h : Later store later) {address : String} {document : Json}
    (hfind : store.cache.find? address = some document) :
    later.cache.find? address = some document := by
  induction h with
  | refl => exact hfind
  | tail _ hstep ih => exact hstep.kept ih

/-- A predicate holds of all documents that are kept. -/
def Keeps (P : Json → Prop) (store : DirectoryStore) : Prop :=
  ∀ address document, store.cache.find? address = some document → P document

section Keeps

variable {P : Json → Prop}
  (hread : ∀ address content document, documentOf address content = .ok document → P document)

include hread

theorem Gathers.keeps {files : List (String × String)} (h : Gathers files store later)
    (hstore : store.Keeps P) : later.Keeps P := by
  intro address document hfind
  rcases h.added address document hfind with hfind | ⟨path, -, hdocument⟩
  · exact hstore address document hfind
  · exact hread _ _ _ hdocument

theorem Step.keeps (h : Step store later) (hstore : store.Keeps P) : later.Keeps P := by
  cases h with
  | fetch address => exact (store.fetch_gathers address).keeps hread hstore
  | preload h =>
    obtain ⟨files, -, rfl⟩ := h
    exact (store.loadAll_gathers files 0).keeps hread hstore
  | outside tree => exact hstore

/-- What holds of each document that is read holds of all documents that are ever kept. -/
theorem CanReach.keeps {tree : FileTree} {base : String} (h : CanReach tree base store) :
    store.Keeps P := by
  induction h with
  | refl =>
    intro address document hfind
    cases hfind
  | tail _ hstep ih => exact hstep.keeps hread ih

end Keeps

/-- Stores with the same documents at the same addresses have the same digest. -/
theorem bundleHash_congr (h : ∀ address, later.cache.find? address = store.cache.find? address) :
    later.addresses = store.addresses ∧ later.bundleHash = store.bundleHash := by
  have hcache : later.cache = store.cache := SortedMap.eq_of_find?_eq h
  unfold addresses bundleHash bundleText
  rw [hcache]
  exact ⟨rfl, rfl⟩

/-- Over every history of a store, in which documents are fetched, directories are read ahead in any order
of their files, and files are changed from outside:

* what is kept is an object or a boolean;
* a document that is kept stays, and is what is fetched from then on; this holds of a document that has
  been fetched, and at the address of each file of a directory that has been read ahead;
* a fetch that fails leaves the addresses and the digest as they are, and reading ahead that fails only
  adds documents of files of the directory;
* the digest only depends on the documents and their addresses, whatever order they were read in. -/
theorem fetch_once {tree : FileTree} {base : String} (hstore : CanReach tree base store) :
    (∀ address document, store.cache.find? address = some document → IsDocument document) ∧
    (∀ address document, store.cache.find? address = some document →
      ∀ later, Later store later → later.cache.find? address = some document ∧
        later.fetch address = (.ok document, later)) ∧
    (∀ address document, (store.fetch address).1 = .ok document →
      ∀ later, Later (store.fetch address).2 later →
        later.cache.find? address = some document ∧ later.fetch address = (.ok document, later)) ∧
    (∀ directory count loaded, store.MayPreload directory (.ok count, loaded) →
      ∀ file ∈ store.documentsBelow directory, ∃ document, ∀ later, Later loaded later →
        later.cache.find? file.1 = some document ∧ later.fetch file.1 = (.ok document, later)) ∧
    (∀ address failure, (store.fetch address).1 = .error failure →
      (store.fetch address).2.addresses = store.addresses ∧
        (store.fetch address).2.bundleHash = store.bundleHash) ∧
    (∀ directory failure loaded, store.MayPreload directory (.error failure, loaded) →
      Gathers (store.documentsBelow directory) store loaded) ∧
    ∀ (otherTree : FileTree) (otherBase : String) (other : DirectoryStore),
      CanReach otherTree otherBase other →
        (∀ address, other.cache.find? address = store.cache.find? address) →
          other.bundleHash = store.bundleHash := by
  have hstays : ∀ {store : DirectoryStore} {address document},
      store.cache.find? address = some document → ∀ later, Later store later →
        later.cache.find? address = some document ∧ later.fetch address = (.ok document, later) :=
    fun hfind later hlater => ⟨hlater.kept hfind, fetch_of_find? (hlater.kept hfind)⟩
  have hproper : store.Keeps IsDocument := hstore.keeps fun _ _ _ hread => (of_documentOf_eq_ok hread).1
  refine ⟨hproper, fun address document => hstays, ?_, ?_, ?_, ?_, ?_⟩
  · exact fun address document hfetch => hstays (find?_of_fetch hfetch)
  · rintro directory count loaded ⟨files, hperm, hload⟩ file hfile
    have hok : (store.loadAll files 0).1 = .ok count := congrArg Prod.fst hload
    obtain ⟨document, hfind⟩ := find?_of_loadAll hok file (hperm.mem_iff.2 hfile)
    rw [hload] at hfind
    exact ⟨document, hstays hfind⟩
  · intro address failure hfetch
    rw [snd_fetch_of_error hfetch]
    exact ⟨rfl, rfl⟩
  · rintro directory failure loaded ⟨files, hperm, hload⟩
    have hgathers := (store.loadAll_gathers files 0).mono fun file => hperm.mem_iff.1
    rw [hload] at hgathers
    exact hgathers
  · exact fun _ _ other _ hsame => (bundleHash_congr hsame).2

/-- A tree with a single file in the working directory. -/
def petTree (content : String) : FileTree := ⟨["work"], [(["work", "pet.json"], .text content)]⟩

/-- A document that has been fetched stays the same when its file becomes malformed. -/
theorem fetch_once_pet :
    let store := ofBase (petTree "true") "."
    let changed := { (store.fetch "pet.json").2 with tree := petTree "\x7b" }
    ∃ document, (store.fetch "pet.json").1 = .ok document ∧
      changed.fetch "pet.json" = (.ok document, changed) := by
  intro store changed
  have hreach : CanReach (petTree "true") "." store := .refl
  have hok : (store.fetch "pet.json").1.isOk = true := by decide +kernel
  cases hfetch : (store.fetch "pet.json").1 with
  | ok document =>
    obtain ⟨-, -, hfetched, -⟩ := fetch_once hreach
    have hchanged := hfetched "pet.json" document hfetch changed (.single (.outside _ _))
    exact ⟨document, rfl, hchanged.2⟩
  | error failure =>
    rw [hfetch] at hok
    cases hok

end DirectoryStore

end ShapeGraph
