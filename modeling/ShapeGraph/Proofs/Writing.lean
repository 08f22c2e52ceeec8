import ShapeGraph.Proofs.Addresses
import ShapeGraph.Proofs.Membership

/-!
# Writing files

What is written to a file is read from it, and nothing else in the tree is changed: all directories stay where
they are, and so do all other files.  Whether a file can be written does not depend on the text.

## Main definitions

* `FileTree.Grounded` — all directories on the way to some names are there.
* `FileTree.SameBut` — two trees that differ in the file at one place only.

## Main results

* `FileTree.SameBut.read_toOption` — the files at other places are the same.
* `FileTree.exists_of_write` — the tree after a text has been written.

## Design

A path that leads through the file is refused before and after, for another reason if there was no file
before.  So walks are compared only by where they end.
-/

set_option autoImplicit false

namespace ShapeGraph

namespace FileTree

variable {tree later : FileTree} {place names found : List String} {path component : String}

/-! ## Grounded names -/

/-- All directories on the way to some names are there. -/
def Grounded (tree : FileTree) (names : List String) : Prop :=
  ∀ i < names.length, tree.entry? (names.take i) = some .directory

theorem grounded_startOf (tree : FileTree) (path : String) : tree.Grounded (tree.startOf path) := by
  intro i hi
  have hparent : (tree.startOf path).take i <+: tree.here := by
    unfold startOf
    split
    · rw [List.take_nil]
      exact List.nil_prefix
    · exact List.take_prefix i tree.here
  exact if_pos (List.isPrefixOf_iff_prefix.2 hparent)

/-- Only a directory can be walked through. -/
theorem directory_of_descend (h : tree.descend names component = .ok found) :
    tree.entry? names = some .directory := by
  unfold descend at h
  split at h
  · cases h
  · assumption
  · cases h

theorem Grounded.descend (hnames : tree.Grounded names) (h : tree.descend names component = .ok found) :
    tree.Grounded found := by
  have hdirectory := directory_of_descend h
  rw [eq_of_descend h]
  unfold Address.descend
  intro i hi
  split_ifs at hi ⊢ with hup hstill
  · rw [List.length_dropLast] at hi
    rw [List.dropLast_eq_take, List.take_take, Nat.min_eq_left (Nat.le_of_lt hi)]
    exact hnames i (by omega)
  · exact hnames i hi
  · rw [List.length_append, List.length_singleton] at hi
    rw [List.take_append_of_le_length (Nat.le_of_lt_succ hi)]
    rcases Nat.lt_or_ge i names.length with hlt | hge
    · exact hnames i hlt
    · rw [List.take_of_length_le hge]
      exact hdirectory

theorem Grounded.foldlM_descend {components : List String} (hnames : tree.Grounded names)
    (h : components.foldlM tree.descend names = .ok found) : tree.Grounded found := by
  induction components generalizing names with
  | nil => exact Except.ok.inj h ▸ hnames
  | cons component rest ih =>
    rw [List.foldlM_cons] at h
    obtain ⟨next, hnext, hrest⟩ := exists_of_bind_eq_ok h
    exact ih (hnames.descend hnext) hrest

/-! ## Trees that differ in one file -/

/-- Two trees that differ in the file at one place only, if there is one. -/
structure SameBut (place : List String) (tree later : FileTree) : Prop where
  /-- The working directory is the same. -/
  here : later.here = tree.here
  /-- So is what stands anywhere else. -/
  entry : ∀ names, names ≠ place → later.entry? names = tree.entry? names
  /-- There is no directory at the place before. -/
  before : tree.entry? place ≠ some .directory
  /-- There is none afterwards. -/
  after : later.entry? place ≠ some .directory

theorem SameBut.symm (h : SameBut place tree later) : SameBut place later tree :=
  ⟨h.here.symm, fun names hne => (h.entry names hne).symm, h.after, h.before⟩

theorem SameBut.descend (h : SameBut place tree later) (hd : tree.descend names component = .ok found) :
    later.descend names component = .ok found := by
  have hdirectory := directory_of_descend hd
  have hne : names ≠ place := by
    rintro rfl
    exact h.before hdirectory
  rw [← hd]
  unfold FileTree.descend
  rw [h.entry names hne]

theorem SameBut.foldlM_descend (h : SameBut place tree later) {components : List String}
    (hd : components.foldlM tree.descend names = .ok found) :
    components.foldlM later.descend names = .ok found := by
  induction components generalizing names with
  | nil => exact hd
  | cons component rest ih =>
    rw [List.foldlM_cons] at hd ⊢
    obtain ⟨next, hnext, hrest⟩ := exists_of_bind_eq_ok hd
    rw [h.descend hnext]
    exact ih hrest

theorem SameBut.walk (h : SameBut place tree later) (hwalk : tree.walk path = .ok names) :
    later.walk path = .ok names := by
  obtain ⟨⟨⟩, hcheck, hnames⟩ := exists_of_bind_eq_ok hwalk
  have hstart : later.startOf path = tree.startOf path := by
    unfold startOf
    rw [h.here]
  unfold FileTree.walk
  rw [hcheck, hstart]
  exact h.foldlM_descend hnames

/-- A path that leads elsewhere leads to the same entry, or is refused in both trees. -/
theorem SameBut.walk_cases (h : SameBut place tree later) (hpath : tree.placeOf path ≠ place) :
    (∃ names, tree.walk path = .ok names ∧ later.walk path = .ok names ∧
      later.entry? names = tree.entry? names) ∨
    (∃ fault fault', tree.walk path = .error fault ∧ later.walk path = .error fault') := by
  cases hwalk : tree.walk path with
  | ok names =>
    refine Or.inl ⟨names, rfl, h.walk hwalk, h.entry names ?_⟩
    rw [eq_placeOf_of_walk hwalk]
    exact hpath
  | error fault =>
    cases hlater : later.walk path with
    | ok names =>
      rw [h.symm.walk hlater] at hwalk
      cases hwalk
    | error fault' => exact Or.inr ⟨fault, fault', rfl, rfl⟩

theorem SameBut.entryAt? (h : SameBut place tree later) (hpath : tree.placeOf path ≠ place) :
    later.entryAt? path = tree.entryAt? path := by
  unfold FileTree.entryAt?
  rcases h.walk_cases hpath with ⟨names, hwalk, hlater, hentry⟩ | ⟨fault, fault', hwalk, hlater⟩
  · rw [hwalk, hlater]
    exact hentry
  · rw [hwalk, hlater]

theorem SameBut.isFile (h : SameBut place tree later) (hpath : tree.placeOf path ≠ place) :
    later.isFile path = tree.isFile path := by
  unfold FileTree.isFile
  rw [h.entryAt? hpath]

/-- The files at other places are the same. -/
theorem SameBut.read_toOption (h : SameBut place tree later) (hpath : tree.placeOf path ≠ place) :
    (later.read path).toOption = (tree.read path).toOption := by
  unfold FileTree.read
  rcases h.walk_cases hpath with ⟨names, hwalk, hlater, hentry⟩ | ⟨fault, fault', hwalk, hlater⟩
  · rw [hwalk, hlater]
    show (later.readAt names).toOption = (tree.readAt names).toOption
    unfold FileTree.readAt
    rw [hentry]
  · rw [hwalk, hlater]
    rfl

/-! ## The tree with an entry put into it -/

theorem lookup_filter_append (place names : List String) (entry : Entry)
    (entries : List (List String × Entry)) :
    (entries.filter (fun e => e.1 ≠ place) ++ [(place, entry)]).lookup names =
      if names = place then some entry else entries.lookup names := by
  induction entries with
  | nil => exact lookup_cons_eq_ite place names entry []
  | cons e rest ih =>
    obtain ⟨key, old⟩ := e
    by_cases hkey : key = place
    · rw [List.filter_cons_of_neg (by simp [hkey]), ih, hkey, lookup_cons_eq_ite]
      split_ifs <;> rfl
    · rw [List.filter_cons_of_pos (by simp [hkey]), List.cons_append, lookup_cons_eq_ite, ih,
        lookup_cons_eq_ite]
      apply ite_ite_comm
      rintro rfl
      exact hkey

/-- Where all directories on the way are there, only the entry itself is new. -/
theorem Grounded.entry?_put (hgrounded : tree.Grounded place) (hplace : tree.entry? place ≠ some .directory)
    (entry : Entry) (names : List String) :
    FileTree.entry? (tree.put place entry) names =
      if names = place then some entry else tree.entry? names := by
  have hmissing : ((List.range place.length).map place.take).filter
      (fun d => (tree.entry? d).isNone) = [] := by
    rw [List.filter_eq_nil_iff]
    intro d hd
    obtain ⟨i, hi, rfl⟩ := List.mem_map.1 hd
    rw [hgrounded i (List.mem_range.1 hi)]
    exact Bool.false_ne_true
  have hput : tree.put place entry =
      ⟨tree.here, tree.entries.filter (fun e => e.1 ≠ place) ++ [(place, entry)]⟩ := by
    unfold put
    dsimp only
    rw [hmissing, List.map_nil, List.append_nil]
  have hhere : place.isPrefixOf tree.here ≠ true := fun hprefix => hplace (if_pos hprefix)
  rw [hput]
  unfold entry?
  rw [lookup_filter_append]
  by_cases h : names = place
  · rw [if_pos h, if_pos h, h, if_neg hhere]
  · rw [if_neg h, if_neg h]

theorem Grounded.sameBut_put (hgrounded : tree.Grounded place) (hplace : tree.entry? place ≠ some .directory)
    (content : String) : SameBut place tree (tree.put place (.text content)) where
  here := rfl
  entry names hne := by rw [hgrounded.entry?_put hplace, if_neg hne]
  before := hplace
  after := by
    rw [hgrounded.entry?_put hplace, if_pos rfl]
    exact fun h => Entry.noConfusion (Option.some.inj h)

/-! ## Writing -/

/-- Where no empty component at the end is taken away, there is none. -/
theorem eq_of_trimmed {components : List String}
    (h : ¬(components.reverse.dropWhile (· = "")).reverse.length < components.length) :
    (components.reverse.dropWhile (· = "")).reverse = components ∧ components.getLast? ≠ some "" := by
  have hsuffix := List.dropWhile_suffix (fun s : String => decide (s = "")) (l := components.reverse)
  have htrimmed : components.reverse.dropWhile (· = "") = components.reverse := by
    refine hsuffix.eq_of_length (Nat.le_antisymm hsuffix.length_le ?_)
    rw [List.length_reverse] at h ⊢
    exact Nat.not_lt.1 h
  refine ⟨by rw [htrimmed, List.reverse_reverse], fun hlast => ?_⟩
  have hhead := List.head?_dropWhile_not (fun s : String => decide (s = "")) components.reverse
  rw [htrimmed, List.head?_reverse, hlast] at hhead
  exact absurd hhead (by decide)

/-- A name that can be stepped to from a directory. -/
theorem descend_name {name : String} (hnames : tree.entry? names = some .directory) (hempty : name ≠ "")
    (hdots : ¬(name = "." ∨ name = "..")) (hlength : ¬maxNameLength < name.utf8ByteSize) :
    tree.descend names name = .ok (names ++ [name]) := by
  rw [not_or] at hdots
  unfold FileTree.descend
  rw [hnames]
  dsimp only
  rw [if_neg hdots.2, if_neg (not_or.2 ⟨hdots.1, hempty⟩), if_neg hlength]

/-- Where a text can be written, there is no directory, but all directories on the way are there; and any
other text can be written there as well. -/
theorem exists_of_write {content : String} (h : tree.write path content = .ok later) :
    tree.walk path = .ok (tree.placeOf path) ∧ tree.Grounded (tree.placeOf path) ∧
      tree.entry? (tree.placeOf path) ≠ some .directory ∧
      ∀ other, tree.write path other = .ok (tree.put (tree.placeOf path) (.text other)) := by
  obtain ⟨⟨⟩, hcheck, hsteps⟩ := exists_of_bind_eq_ok h
  obtain ⟨parent, hparent, hfile⟩ := exists_of_bind_eq_ok hsteps
  obtain ⟨same, hsame, htarget⟩ := exists_of_bind_eq_ok hfile
  have hdirectory := directory_of_descend hsame
  obtain rfl : same = parent := eq_of_descend hsame
  clear hfile hsteps
  split at htarget
  · next name hname =>
    split_ifs at htarget with hdots hlength hentry
    rw [not_or] at hdots
    obtain ⟨htrimmed, hlast⟩ := eq_of_trimmed hdots.1
    rw [htrimmed] at hparent hname
    obtain ⟨front, hfront⟩ := List.getLast?_eq_some_iff.1 hname
    have hempty : name ≠ "" := by
      rintro rfl
      exact hlast hname
    have hstep := descend_name hdirectory hempty hdots.2 hlength
    have hwalk : tree.walk path = .ok (same ++ [name]) := by
      unfold FileTree.walk
      rw [hfront, List.dropLast_concat] at hparent
      rw [hcheck, hfront]
      show (front ++ [name]).foldlM tree.descend (tree.startOf path) = _
      rw [List.foldlM_append, hparent]
      show [name].foldlM tree.descend same = _
      rw [List.foldlM_cons, hstep]
      rfl
    rw [← eq_placeOf_of_walk hwalk]
    refine ⟨hwalk, ((grounded_startOf tree path).foldlM_descend hparent).descend hstep, hentry, fun other => ?_⟩
    have hnot : ¬((segments '/' path).length < (segments '/' path).length ∨ name = "." ∨ name = "..") := by
      rw [htrimmed] at hdots
      exact not_or.2 hdots
    simp only [FileTree.write, hcheck, htrimmed, hparent, hsame, hname, bind, Except.bind, if_neg hnot,
      if_neg hlength, if_neg hentry]
  · cases htarget

end FileTree

end ShapeGraph
