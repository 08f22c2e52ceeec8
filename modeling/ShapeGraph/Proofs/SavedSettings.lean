import ShapeGraph.Proofs.Overlays
import ShapeGraph.Proofs.Writing

/-!
# Saved settings are loaded again

Settings that are saved to a file are what is loaded when this file is asked for, whatever the files say that
come before it: they set everything, and what is written is what is read.  Only a limit that is too large cannot
be saved, and then no file is changed.

## Main definitions

* `Settings.lowerLayers` — what the files say that are read without being asked for.
* `Settings.WellFormed` — these files can be read and laid above each other.
* `Settings.candidates`, `Settings.locations` — the files that are looked for.

## Main results

* `Settings.load_of_request` — a source that sets everything decides what is loaded.
* `Settings.lowerLayers_of_sameBut` — a file elsewhere makes no difference to the sources.
* `Settings.load_save` — saved settings are loaded again.

## Design

Whether sources can be combined at all does not depend on the last of them, but on those before: a place in a list
that is counted from the end has to be there.  So being well formed is a property of the files together.
-/

set_option autoImplicit false

namespace ShapeGraph

namespace Settings

open Setting

variable {s : Settings} {tree later : FileTree} {place : List String} {path : String}
  {userFile : Option String} {environment : List (String × String)}

/-! ## Sources below the file that is asked for -/

/-- What the files say that are read without being asked for. -/
def lowerLayers (tree : FileTree) (userFile : Option String) : List (Option Layer) :=
  defaultPaths.map (layerOfFile tree false) ++ [layerOfUser tree userFile]

/-- The files that are read without being asked for can be read, each above those before it. -/
def WellFormed (tree : FileTree) (userFile : Option String) : Prop :=
  (combine (lowerLayers tree userFile)).isOk = true

instance (tree : FileTree) (userFile : Option String) : Decidable (WellFormed tree userFile) :=
  inferInstanceAs (Decidable ((combine (lowerLayers tree userFile)).isOk = true))

theorem isName_of_plain {key : String} (hne : key.toList ≠ [])
    (h : ∀ c ∈ key.toList, KeyPath.isNameChar c = true) : IsName key := by
  have hend : ∀ c ∈ ([] : List Char).head?, KeyPath.isNameChar c = false := by simp
  obtain ⟨hword, hrest⟩ := Toml.span_append h hend
  rw [List.append_nil] at hword hrest
  unfold IsName KeyPath.ofKey
  rw [KeyPath.steps?]
  simp only [hword, hrest, if_neg hne, KeyPath.steps?]
  rw [Option.map_some, String.ofList_toList]
  rfl

/-! ## The file that is asked for -/

theorem isName_of_mem_savedLayer : ∀ e ∈ s.savedLayer, IsName e.1 := by
  have hnames : ∀ key ∈ ["convert", "output", "logging"],
      key.toList ≠ [] ∧ ∀ c ∈ key.toList, KeyPath.isNameChar c = true := by
    simp [KeyPath.isNameChar]
  intro e he
  have hmem : e.1 ∈ s.savedLayer.map Prod.fst := List.mem_map_of_mem he
  obtain ⟨hne, hplain⟩ := hnames e.1 hmem
  exact isName_of_plain hne hplain

theorem layerOfEnvironment_of_none (h : ∀ e ∈ environment, keyOfVariable? e.1 = none) :
    layerOfEnvironment environment = [] := by
  rw [layerOfEnvironment, List.filterMap_eq_nil_iff]
  intro e he
  rw [h e he]
  rfl

/-- A source that sets everything decides what is loaded, if the sources below it can be combined. -/
theorem load_of_request (hrequest : layerOfRequest tree (some path) = some s.savedLayer)
    (henvironment : layerOfEnvironment environment = []) :
    load tree userFile (some path) environment =
      (combine (lowerLayers tree userFile)).map fun _ => s := by
  have hlayers : layers tree userFile (some path) environment =
      lowerLayers tree userFile ++ [some s.savedLayer, some []] := by
    rw [← hrequest, ← henvironment, lowerLayers, List.append_assoc]
    rfl
  unfold load
  rw [hlayers]
  unfold combine
  rw [List.foldlM_append]
  cases (lowerLayers tree userFile).foldlM addLayer [] with
  | error fault => rfl
  | ok entries =>
    have hlast : [some s.savedLayer, some []].foldlM addLayer entries =
        .ok (overlayEntries s.savedLayer entries) := by
      rw [List.foldlM_cons, addLayer_of_names isName_of_mem_savedLayer]
      rfl
    simp only [bind, Except.bind, hlast, ofEntries_overlayEntries_savedLayer]
    rfl

/-- A file that has been written with saved settings is found under its path, and says what was saved. -/
theorem layerOfRequest_of_read (hformat : formatOf path = some .toml) (hfile : tree.isFile path = true)
    (hread : tree.read path = .ok s.toText) (hlimit : s.maxDepth ≤ maxSaved) :
    layerOfRequest tree (some path) = some s.savedLayer := by
  have hlocate : locate? tree path = some (path, .toml) := by
    rw [locate?, if_pos hfile, hformat]
    rfl
  have htext : textOfFile? tree path = some (s.toText, .toml) := by
    rw [textOfFile?, hlocate]
    simp only [Option.bind_eq_bind, Option.bind_some, hread]
    rfl
  show layerOfFile tree true path = _
  rw [layerOfFile, htext]
  exact parse?_toText hlimit

/-! ## Files elsewhere -/

/-- The files that a path may name. -/
def candidates (path : String) : List String := path :: (variants path).map Prod.fst

/-- Where settings are looked for without being asked for. -/
def locations (userFile : Option String) : List String := defaultPaths ++ userFile.toList

theorem mem_candidates_of_locate? {file : String × SettingsFormat} (h : locate? tree path = some file) :
    file.1 ∈ candidates path := by
  unfold locate? at h
  split at h
  · obtain ⟨format, -, rfl⟩ := Option.map_eq_some_iff.1 h
    exact List.mem_cons_self
  · exact List.mem_cons_of_mem _ (List.mem_map_of_mem (List.mem_of_find?_eq_some h))

theorem locate?_of_sameBut (h : FileTree.SameBut place tree later)
    (hpath : ∀ file ∈ candidates path, tree.placeOf file ≠ place) : locate? later path = locate? tree path := by
  have hfirst : later.isFile path = tree.isFile path := h.isFile (hpath path List.mem_cons_self)
  have hvariants : (variants path).find? (fun file => later.isFile file.1) =
      (variants path).find? (fun file => tree.isFile file.1) := by
    rw [← List.head?_filter, ← List.head?_filter]
    refine congrArg List.head? (List.filter_congr fun file hfile => ?_)
    exact h.isFile (hpath file.1 (List.mem_cons_of_mem _ (List.mem_map_of_mem hfile)))
  rw [locate?, locate?, hfirst, hvariants]

theorem layerOfFile_of_sameBut (h : FileTree.SameBut place tree later)
    (hpath : ∀ file ∈ candidates path, tree.placeOf file ≠ place) (required : Bool) :
    layerOfFile later required path = layerOfFile tree required path := by
  have htext : textOfFile? later path = textOfFile? tree path := by
    rw [textOfFile?, textOfFile?, locate?_of_sameBut h hpath]
    cases hlocate : locate? tree path with
    | none => rfl
    | some file =>
      have hread := h.read_toOption (hpath file.1 (mem_candidates_of_locate? hlocate))
      simp only [Option.bind_eq_bind, Option.bind_some, hread]
  rw [layerOfFile, layerOfFile, htext]

/-- A file elsewhere makes no difference to the sources that are read without being asked for. -/
theorem lowerLayers_of_sameBut (h : FileTree.SameBut place tree later)
    (hlocations : ∀ location ∈ locations userFile, ∀ file ∈ candidates location, tree.placeOf file ≠ place) :
    lowerLayers later userFile = lowerLayers tree userFile := by
  have hdefault : defaultPaths.map (layerOfFile later false) = defaultPaths.map (layerOfFile tree false) := by
    refine List.map_congr_left fun path hpath => ?_
    exact layerOfFile_of_sameBut h (hlocations path (List.mem_append_left _ hpath)) false
  have huser : layerOfUser later userFile = layerOfUser tree userFile := by
    cases userFile with
    | none => rfl
    | some file =>
      have hfile := hlocations file (by simp [locations])
      have hentry := h.entryAt? (hfile file List.mem_cons_self)
      unfold layerOfUser Option.filter
      simp only [hentry]
      split_ifs
      · exact layerOfFile_of_sameBut h hfile false
      · rfl
  rw [lowerLayers, lowerLayers, hdefault, huser]

/-! ## Saving and loading -/

/-- Where something can be written, settings can be saved, and the file is found and holds their text. -/
theorem exists_save (hwritable : (tree.write path "").isOk = true) (hlimit : s.maxDepth ≤ maxSaved) :
    ∃ later, s.save tree path = .ok later ∧ FileTree.SameBut (tree.placeOf path) tree later ∧
      later.isFile path = true ∧ later.read path = .ok s.toText := by
  cases hempty : tree.write path "" with
  | error fault =>
    rw [hempty] at hwritable
    cases hwritable
  | ok _ =>
    obtain ⟨hwalk, hgrounded, hplace, hwrite⟩ := FileTree.exists_of_write hempty
    have hsame := hgrounded.sameBut_put hplace s.toText
    have hlater := hsame.walk hwalk
    have hentry : FileTree.entry? (tree.put (tree.placeOf path) (.text s.toText)) (tree.placeOf path) =
        some (.text s.toText) := by
      rw [hgrounded.entry?_put hplace, if_pos rfl]
    refine ⟨tree.put (tree.placeOf path) (.text s.toText), ?_, hsame, ?_, ?_⟩
    · rw [save, if_neg (Nat.not_lt.2 hlimit), hwrite]
    · simp only [FileTree.isFile, FileTree.entryAt?, hlater, hentry]
    · simp only [FileTree.read, hlater, FileTree.readAt, hentry, bind, Except.bind]

/-- Settings whose limit is not too large can be saved wherever a file can be written, and are what is loaded
when this file is asked for: no key of a file that is read without being asked for is left.  Settings with a
greater limit are not saved at all.  The files that are read without being asked for are those in TOML and
JSON; files in other formats are left out. -/
theorem load_save (s : Settings) (hformat : formatOf path = some .toml)
    (hwritable : (tree.write path "").isOk = true)
    (hother : ∀ location ∈ locations userFile, ∀ file ∈ candidates location,
      tree.placeOf file ≠ tree.placeOf path)
    (hwell : WellFormed tree userFile) (henvironment : ∀ e ∈ environment, keyOfVariable? e.1 = none) :
    (s.maxDepth ≤ maxSaved → ∃ later, s.save tree path = .ok later ∧
      load later userFile (some path) environment = .ok s) ∧
    (maxSaved < s.maxDepth → s.save tree path = .error .limitTooLarge) := by
  refine ⟨fun hlimit => ?_, fun hlimit => if_pos hlimit⟩
  obtain ⟨later, hsave, hsame, hfile, hread⟩ := exists_save hwritable hlimit
  have hrequest := layerOfRequest_of_read hformat hfile hread hlimit
  refine ⟨later, hsave, ?_⟩
  rw [load_of_request hrequest (layerOfEnvironment_of_none henvironment), lowerLayers_of_sameBut hsame hother]
  cases hcombine : combine (lowerLayers tree userFile) with
  | error fault =>
    rw [WellFormed, hcombine] at hwell
    cases hwell
  | ok entries => rfl

/-- A file in the working directory and the user's file set other values for some of the keys. -/
theorem load_save_above_others :
    let tree : FileTree := ⟨["work"], [(["work", "typegraph.toml"],
        .text "[convert]\nroot_name = \"Other\"\nmax_depth = 5\n"), (["home"], .directory),
      (["home", "typegraph.toml"], .text "output.format = \"dot\"\n[logging]\nlevel = \"debug\"\n")]⟩
    let s : Settings := ⟨0, false, "say \"Root\"", .json, false, "warn"⟩
    ∃ later, s.save tree "saved.toml" = .ok later ∧
      load later (some "/home/typegraph.toml") (some "saved.toml") [("HOME", "/home")] = .ok s := by
  intro tree s
  exact (load_save s (by decide +kernel) (by decide +kernel) (by decide +kernel) (by decide +kernel)
    (by decide +kernel)).1 (by decide +kernel)

end Settings

end ShapeGraph
