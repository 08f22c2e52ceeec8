import ShapeGraph.Proofs.Membership
import ShapeGraph.Proofs.SettingsTexts

/-!
# Settings above settings

Of two sources the later one wins, key by key.  What a source sets is what comes of it, whatever stands below;
what it does not set stays as it was.  Saved settings set everything, so nothing of what is below them is left.

## Main results

* `Setting.lookup_overlayEntries` — what a source sets comes above what is below.
* `Setting.lookup_overlayEntries_of_ne` — what it does not set stays.
* `Settings.addLayer_of_names` — a source whose keys are names is laid above the others.
* `Settings.ofEntries_overlayEntries_savedLayer` — saved settings are what they are above anything.
-/

set_option autoImplicit false

namespace ShapeGraph

namespace Setting

/-! ## Entries -/

theorem lookup_setEntry (key other : String) (value : Setting) (entries : List (String × Setting)) :
    (setEntry key value entries).lookup other =
      if other = key then some value else entries.lookup other := by
  induction entries with
  | nil => exact lookup_cons_eq_ite key other value []
  | cons e rest ih =>
    obtain ⟨k, v⟩ := e
    rw [setEntry]
    by_cases hk : k = key
    · rw [if_pos hk, hk, lookup_cons_eq_ite, lookup_cons_eq_ite]
      split_ifs <;> rfl
    · rw [if_neg hk, lookup_cons_eq_ite, ih, lookup_cons_eq_ite]
      apply ite_ite_comm
      rintro rfl
      exact hk

/-- What a source does not set stays as it was. -/
theorem lookup_overlayEntries_of_ne {above : List (String × Setting)} {key : String}
    (h : ∀ e ∈ above, lowered e.1 ≠ key) (below : List (String × Setting)) :
    (overlayEntries above below).lookup key = below.lookup key := by
  induction above generalizing below with
  | nil => rw [overlayEntries]
  | cons e above ih =>
    rw [List.forall_mem_cons] at h
    rw [overlayEntries, ih h.2, lookup_setEntry, if_neg (Ne.symm h.1)]

/-- What a source sets comes above what is below. -/
theorem lookup_overlayEntries {above : List (String × Setting)} (hkeys : (above.map fun e => lowered e.1).Nodup)
    {key : String} {value : Setting} (hmem : (key, value) ∈ above) (below : List (String × Setting)) :
    (overlayEntries above below).lookup (lowered key) = some (overlay value (below.lookup (lowered key))) := by
  induction above generalizing below with
  | nil => exact absurd hmem List.not_mem_nil
  | cons e above ih =>
    rw [List.map_cons, List.nodup_cons] at hkeys
    have hne : ∀ f ∈ above, lowered f.1 ≠ lowered e.1 := fun f hf heq =>
      hkeys.1 (List.mem_map.2 ⟨f, hf, heq⟩)
    rcases List.mem_cons.1 hmem with rfl | hmem
    · rw [overlayEntries, lookup_overlayEntries_of_ne hne, lookup_setEntry, if_pos rfl]
    · rw [overlayEntries, ih hkeys.2 hmem, lookup_setEntry, if_neg (hne _ hmem)]

end Setting

namespace Settings

open Setting

/-! ## Sources whose keys are names -/

/-- A key that is a name leads to the entry with this name. -/
def IsName (key : String) : Prop := KeyPath.ofKey key = [.key key]

theorem addEntry_of_isName {key : String} (h : IsName key) (value : Setting) (entries : Layer) :
    addEntry entries (key, value) =
      .ok (setEntry (lowered key) (overlay value (entries.lookup (lowered key))) entries) := by
  unfold addEntry
  rw [h]
  rfl

/-- A source whose keys are names is laid above the others. -/
theorem addLayer_of_names {layer : Layer} (h : ∀ e ∈ layer, IsName e.1) (entries : Layer) :
    addLayer entries (some layer) = .ok (overlayEntries layer entries) := by
  show layer.foldlM addEntry entries = _
  induction layer generalizing entries with
  | nil =>
    rw [overlayEntries]
    rfl
  | cons e layer ih =>
    rw [List.forall_mem_cons] at h
    rw [List.foldlM_cons, addEntry_of_isName h.1, overlayEntries]
    exact ih h.2 _

/-! ## Sections -/

/-- What a section that is laid above anything says under one of its names, unless it is a table. -/
theorem find?_overlay_table {entries : Layer} (hkeys : (entries.map fun e => lowered e.1).Nodup)
    {name : String} {value : Setting} (hmem : (name, value) ∈ entries) (hname : lowered name = name)
    (hvalue : ∀ old, overlay value old = value) (below : Option Setting) (place : Nat) :
    find? (some (overlay (.table entries) below)) place name = some value := by
  cases entries with
  | nil => exact absurd hmem List.not_mem_nil
  | cons e rest =>
    have hlookup := lookup_overlayEntries hkeys hmem ((below.map Setting.entries).getD [])
    rw [hname, hvalue] at hlookup
    rw [overlay]
    exact hlookup

theorem isSection_overlay_table {entries : Layer} (hne : entries ≠ []) (below : Option Setting) :
    isSection (some (overlay (.table entries) below)) = true := by
  obtain ⟨e, rest, rfl⟩ := List.exists_cons_of_ne_nil hne
  rw [overlay]
  rfl

theorem overlay_bool (b : Bool) (below : Option Setting) : overlay (.bool b) below = .bool b := by
  simp [overlay]

theorem overlay_int (n : Int) (below : Option Setting) : overlay (.int n) below = .int n := by
  simp [overlay]

theorem overlay_text (text : String) (below : Option Setting) : overlay (.text text) below = .text text := by
  simp [overlay]

/-! ## Saved settings -/

theorem find?_savedConvert (s : Settings) (below : Option Setting) :
    find? (some (overlay (.table s.savedConvert) below)) 0 "max_depth" = some (.int s.maxDepth) ∧
      find? (some (overlay (.table s.savedConvert) below)) 1 "include_definitions" =
        some (.bool s.includeDefinitions) ∧
      find? (some (overlay (.table s.savedConvert) below)) 2 "root_name" = some (.text s.rootName) := by
  have hkeys : (s.savedConvert.map fun e => lowered e.1).Nodup := by
    show (["max_depth", "include_definitions", "root_name"].map lowered).Nodup
    decide
  exact ⟨find?_overlay_table hkeys (by simp [savedConvert]) (by decide) (overlay_int _) below 0,
    find?_overlay_table hkeys (by simp [savedConvert]) (by decide) (overlay_bool _) below 1,
    find?_overlay_table hkeys (by simp [savedConvert]) (by decide) (overlay_text _) below 2⟩

theorem find?_savedOutput (s : Settings) (below : Option Setting) :
    find? (some (overlay (.table s.savedOutput) below)) 0 "format" = some (.text s.format.name) ∧
      find? (some (overlay (.table s.savedOutput) below)) 1 "pretty" = some (.bool s.pretty) := by
  have hkeys : (s.savedOutput.map fun e => lowered e.1).Nodup := by
    show (["format", "pretty"].map lowered).Nodup
    decide
  exact ⟨find?_overlay_table hkeys (by simp [savedOutput]) (by decide) (overlay_text _) below 0,
    find?_overlay_table hkeys (by simp [savedOutput]) (by decide) (overlay_bool _) below 1⟩

theorem find?_savedLogging (s : Settings) (below : Option Setting) :
    find? (some (overlay (.table s.savedLogging) below)) 0 "level" = some (.text s.logLevel) := by
  have hkeys : (s.savedLogging.map fun e => lowered e.1).Nodup := by
    show (["level"].map lowered).Nodup
    decide
  exact find?_overlay_table hkeys (by simp [savedLogging]) (by decide) (overlay_text _) below 0

/-- The sections of saved settings stand above what was there of them. -/
theorem lookup_overlayEntries_savedLayer (s : Settings) (below : Layer) {name : String} {entries : Layer}
    (hmem : (name, .table entries) ∈ s.savedLayer) (hname : lowered name = name) :
    (overlayEntries s.savedLayer below).lookup name =
      some (overlay (.table entries) (below.lookup name)) := by
  have hkeys : (s.savedLayer.map fun e => lowered e.1).Nodup := by
    show (["convert", "output", "logging"].map lowered).Nodup
    decide
  have hlookup := lookup_overlayEntries hkeys hmem below
  rwa [hname] at hlookup

theorem toFormat?_name (format : OutputFormat) : (Setting.text format.name).toFormat? = some format := by
  cases format <;> decide

/-- Saved settings are what they are above anything. -/
theorem ofEntries_overlayEntries_savedLayer (s : Settings) (below : Layer) :
    ofEntries (overlayEntries s.savedLayer below) = some s := by
  have hconvert : (overlayEntries s.savedLayer below).lookup "convert" =
      some (overlay (.table s.savedConvert) (below.lookup "convert")) :=
    lookup_overlayEntries_savedLayer s below (by simp [savedLayer]) (by decide)
  have houtput : (overlayEntries s.savedLayer below).lookup "output" =
      some (overlay (.table s.savedOutput) (below.lookup "output")) :=
    lookup_overlayEntries_savedLayer s below (by simp [savedLayer]) (by decide)
  have hlogging : (overlayEntries s.savedLayer below).lookup "logging" =
      some (overlay (.table s.savedLogging) (below.lookup "logging")) :=
    lookup_overlayEntries_savedLayer s below (by simp [savedLayer]) (by decide)
  obtain ⟨hdepth, hdefinitions, hroot⟩ := find?_savedConvert s (below.lookup "convert")
  obtain ⟨hformat, hpretty⟩ := find?_savedOutput s (below.lookup "output")
  have hlevel := find?_savedLogging s (below.lookup "logging")
  have hcount : (Setting.int s.maxDepth).toCount? = some s.maxDepth := by
    simp [Setting.toCount?]
  have hsections : isSection (some (overlay (.table s.savedConvert) (below.lookup "convert"))) = true ∧
      isSection (some (overlay (.table s.savedOutput) (below.lookup "output"))) = true ∧
      isSection (some (overlay (.table s.savedLogging) (below.lookup "logging"))) = true :=
    ⟨isSection_overlay_table (List.cons_ne_nil _ _) _, isSection_overlay_table (List.cons_ne_nil _ _) _,
      isSection_overlay_table (List.cons_ne_nil _ _) _⟩
  unfold ofEntries
  simp only [hconvert, houtput, hlogging, hsections, hdepth, hdefinitions, hroot, hformat, hpretty, hlevel,
    valueOr, hcount, toFormat?_name, Bool.and_self, if_true]
  rfl

end Settings

end ShapeGraph
