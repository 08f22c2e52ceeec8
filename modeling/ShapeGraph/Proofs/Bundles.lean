import ShapeGraph.Proofs.Brackets
import ShapeGraph.Proofs.Fetching
import ShapeGraph.Proofs.ReadNumbers

/-!
# What the digest of a bundle tells

The digest of a directory is taken of addresses and documents, one after the other and with nothing between
them.  Where a document ends can be told from its text, where an address ends cannot.  So a document may as
well be part of an address: as soon as there are two documents, there is a different bundle with the same
digest.

## Main definitions

* `IsLegible` — a value is a document, and its numbers are normalised.
* `IsJoined` — an address is made of an address, a document and a greater address.
* `DirectoryStore.bundleBytes` — the bytes that the digest is taken of.
* `DirectoryStore.Apart` — no address of one store begins a different address of the other.
* `DirectoryStore.HasDouble` — there is a different store whose bytes are the same.

## Main results

* `eq_of_document_append_eq`, `eq_of_append_document_eq` — documents can be told from what follows them,
  and from what is before them.
* `DirectoryStore.CanReach.legible` — what is read from files is legible.
* `DirectoryStore.bundleBytes_identify` — what the bytes tell, and what they do not.

## Design

Whether different bytes have different digests is no matter of this library, so it is bytes that are compared.
From the front, a bundle is read address by address.  From the back, the balance of brackets tells where the
last document begins.
-/

set_option autoImplicit false

namespace ShapeGraph

/-! ## Bytes -/

theorem toList_loop_eq (bytes : ByteArray) (i : ℕ) (before : List UInt8) :
    ByteArray.toList.loop bytes i before = before.reverse ++ bytes.data.toList.drop i := by
  fun_induction ByteArray.toList.loop bytes i before with
  | case1 i before hlt ih =>
    have hlength : i < bytes.data.toList.length := hlt
    have hget : bytes.get! i = bytes.data.toList[i] := getElem!_pos bytes.data i hlt
    rw [ih, List.reverse_cons, List.append_assoc, List.drop_eq_getElem_cons hlength, hget]
    rfl
  | case2 i before hge =>
    have hlength : bytes.data.toList.length ≤ i := not_lt.1 hge
    rw [List.drop_eq_nil_of_le hlength, List.append_nil]

/-- The bytes of a text tell the text. -/
theorem toList_toUTF8_injective {text other : String} (h : text.toUTF8.toList = other.toUTF8.toList) :
    text = other := by
  have hdata (bytes : ByteArray) : bytes.toList = bytes.data.toList := toList_loop_eq bytes 0 []
  rw [hdata, hdata] at h
  exact String.toByteArray_inj.1 (ByteArray.ext (Array.toList_inj.1 h))

/-! ## Documents -/

namespace Json

theorem compact_ne_nil (v : Json) : v.compact.toList ≠ [] := by
  obtain ⟨c, rest, htext, -⟩ := v.exists_compact_eq_cons
  rw [htext]
  exact List.cons_ne_nil c rest

/-- The text of an object ends with its closing brace. -/
theorem getLast?_compact_obj (members : List (String × Json)) :
    (obj members).compact.toList.getLast? = some '\x7d' := by
  rw [compact, String.toList_append, List.getLast?_append]
  rfl

theorem getLast?_compact_bool (b : Bool) : (bool b).compact.toList.getLast? = some 'e' := by
  cases b <;> rfl

end Json

/-- The value is a document, and its numbers are normalised. -/
def IsLegible (document : Json) : Prop := DirectoryStore.IsDocument document ∧ document.Normalised

variable {v w : Json}

theorem IsLegible.cases (h : IsLegible v) :
    (∃ members, v = .obj members ∧ Json.MembersNormalised members) ∨ ∃ b, v = .bool b := by
  obtain ⟨hobject | hbool, hnormalised⟩ := h
  · cases v with
    | obj members => exact Or.inl ⟨members, rfl, hnormalised⟩
    | _ => cases hobject
  · exact Or.inr hbool

/-- Documents can be told from what follows them. -/
theorem eq_of_document_append_eq (hv : IsLegible v) (hw : IsLegible w) {rest rest' : List Char}
    (h : v.compact.toList ++ rest = w.compact.toList ++ rest') : v = w ∧ rest = rest' := by
  have hkind := Json.kind_eq_of_compact_append_eq h
  rcases hv.cases with ⟨members, rfl, hmembers⟩ | ⟨b, rfl⟩ <;>
    rcases hw.cases with ⟨others, rfl, hothers⟩ | ⟨c, rfl⟩
  · rw [Json.toList_compact_obj, Json.toList_compact_obj] at h
    obtain ⟨rfl, hrest⟩ :=
      Json.eq_of_enclosedMembers_append_eq members others hmembers hothers (List.cons_injective h)
    exact ⟨rfl, hrest⟩
  · cases hkind
  · cases hkind
  · cases b <;> cases c
    · exact ⟨rfl, List.append_cancel_left h⟩
    · cases (List.cons.inj h).1
    · cases (List.cons.inj h).1
    · exact ⟨rfl, List.append_cancel_left h⟩

/-- No text of a document ends with that of another one. -/
theorem eq_nil_of_append_document_eq (hv : IsLegible v) (hw : IsLegible w) {start : List Char}
    (h : start ++ w.compact.toList = v.compact.toList) : start = [] := by
  have hlast := congrArg List.getLast? h
  rw [List.getLast?_append] at hlast
  rcases hv.cases with ⟨members, rfl, -⟩ | ⟨b, rfl⟩ <;>
    rcases hw.cases with ⟨others, rfl, -⟩ | ⟨c, rfl⟩
  · by_contra hstart
    simp only [Json.compact, String.toList_append, List.append_assoc] at h
    exact (Json.balanced_compactMembers members).append_ne (Json.balanced_compactMembers others) hstart h
  · rw [Json.getLast?_compact_obj, Json.getLast?_compact_bool] at hlast
    cases hlast
  · rw [Json.getLast?_compact_obj, Json.getLast?_compact_bool] at hlast
    cases hlast
  · have hsuffix : (Json.bool c).compact.toList <:+ (Json.bool b).compact.toList := ⟨start, h⟩
    have hsame : c = b := by
      revert hsuffix
      cases b <;> cases c <;> decide
    rw [hsame] at h
    exact List.append_left_eq_self.1 h

/-- Documents can be told from what is before them. -/
theorem eq_of_append_document_eq (hv : IsLegible v) (hw : IsLegible w) {start start' : List Char}
    (h : start ++ v.compact.toList = start' ++ w.compact.toList) : start = start' ∧ v = w := by
  have hstart : start = start' := by
    rcases List.append_eq_append_iff.1 h with ⟨between, rfl, htext⟩ | ⟨between, rfl, htext⟩
    · rw [eq_nil_of_append_document_eq hv hw htext.symm, List.append_nil]
    · rw [eq_nil_of_append_document_eq hw hv htext.symm, List.append_nil]
  subst hstart
  have htext := List.append_cancel_left h
  exact ⟨rfl, (eq_of_document_append_eq hv hw (congrArg (· ++ []) htext)).1⟩

/-! ## Entries -/

/-- The text of an address and its document. -/
def entryText (e : String × Json) : List Char := e.1.toList ++ e.2.compact.toList

/-- The text of addresses and their documents. -/
def entriesText (entries : List (String × Json)) : List Char := entries.flatMap entryText

variable {entries others : List (String × Json)}

theorem entryText_ne_nil (e : String × Json) : entryText e ≠ [] :=
  List.append_ne_nil_of_right_ne_nil _ e.2.compact_ne_nil

@[simp] theorem entriesText_nil : entriesText [] = [] := rfl

@[simp] theorem entriesText_cons (e : String × Json) (entries : List (String × Json)) :
    entriesText (e :: entries) = entryText e ++ entriesText entries := rfl

@[simp] theorem entriesText_append (entries others : List (String × Json)) :
    entriesText (entries ++ others) = entriesText entries ++ entriesText others :=
  List.flatMap_append

theorem entriesText_eq_nil_iff : entriesText entries = [] ↔ entries = [] := by
  cases entries with
  | nil => simp
  | cons e entries => simp [entryText_ne_nil]

/-- Addresses tell where they end if none begins a different one. -/
theorem eq_of_entriesText_eq (hentries : ∀ e ∈ entries, IsLegible e.2) (hothers : ∀ e ∈ others, IsLegible e.2)
    (hapart : ∀ d ∈ entries, ∀ e ∈ others,
      d.1.toList <+: e.1.toList ∨ e.1.toList <+: d.1.toList → d.1 = e.1)
    (h : entriesText entries = entriesText others) : entries = others := by
  induction entries generalizing others with
  | nil => exact (entriesText_eq_nil_iff.1 h.symm).symm
  | cons d entries ih =>
    cases others with
    | nil => exact entriesText_eq_nil_iff.1 h
    | cons e others =>
      obtain ⟨address, v⟩ := d
      obtain ⟨address', w⟩ := e
      simp only [entriesText_cons, entryText, List.append_assoc] at h
      obtain rfl : address = address' := by
        refine hapart _ List.mem_cons_self _ List.mem_cons_self ?_
        exact List.prefix_or_prefix_of_prefix ⟨_, h⟩ (List.prefix_append _ _)
      obtain ⟨rfl, hrest⟩ := eq_of_document_append_eq (hentries _ List.mem_cons_self)
        (hothers _ List.mem_cons_self) (List.append_cancel_left h)
      have htail := ih (fun e he => hentries e (List.mem_cons_of_mem _ he))
        (fun e he => hothers e (List.mem_cons_of_mem _ he))
        (fun d hd e he => hapart d (List.mem_cons_of_mem _ hd) e (List.mem_cons_of_mem _ he)) hrest
      rw [htail]

/-- More entries have a longer text. -/
theorem eq_of_sublist_of_entriesText_eq (hsublist : entries.Sublist others)
    (h : entriesText others = entriesText entries) : others = entries := by
  induction hsublist with
  | slnil => rfl
  | @cons entries others e hsublist _ =>
    have hle : (entriesText entries).length ≤ (entriesText others).length :=
      (hsublist.flatMap entryText).length_le
    have hpos : 0 < (entryText e).length := List.length_pos_of_ne_nil (entryText_ne_nil e)
    have hlength := congrArg List.length h
    rw [entriesText_cons, List.length_append] at hlength
    omega
  | cons_cons e _ ih => rw [ih (List.append_cancel_left h)]

/-! ## Joined addresses -/

/-- The address is made of an address, a document, and a greater address. -/
def IsJoined (address : String) : Prop :=
  ∃ first document second, IsLegible document ∧ first < second ∧
    address = first ++ document.compact ++ second

theorem lt_append_of_lt {address other : String} (h : address < other) (rest : String) :
    address < other ++ rest :=
  String.lt_iff.2 (String.toList_append ▸ List.Lex.append_right _ _ (String.lt_iff.1 h))

/-- A text of entries with an address behind them begins with an address. -/
theorem exists_entriesText_append_eq (rest : List (String × Json)) (last : String) :
    ∃ next ∈ rest.map Prod.fst ++ [last], ∃ more,
      String.ofList (entriesText rest ++ last.toList) = next ++ more := by
  cases rest with
  | nil => exact ⟨last, by simp, "", by simp⟩
  | cons e rest =>
    refine ⟨e.1, by simp, String.ofList (e.2.compact.toList ++ entriesText rest ++ last.toList), ?_⟩
    apply String.toList_injective
    simp [entryText]

/-- If several documents have the text of a single one, the address of that one is joined. -/
theorem isJoined_of_entriesText_eq {address : String} (hv : IsLegible v)
    (hothers : ∀ e ∈ others, IsLegible e.2) (hascending : (others.map Prod.fst).Pairwise (· < ·))
    (h : entriesText others = entriesText [(address, v)]) :
    others = [(address, v)] ∨ IsJoined address := by
  rcases others.eq_nil_or_concat' with rfl | ⟨before, ⟨last, w⟩, rfl⟩
  · exact absurd (entriesText_eq_nil_iff.1 h.symm) (List.cons_ne_nil _ _)
  have htext : (entriesText before ++ last.toList) ++ w.compact.toList =
      address.toList ++ v.compact.toList := by
    simpa [entryText] using h
  obtain ⟨haddress, rfl⟩ := eq_of_append_document_eq (hothers (last, w) (by simp)) hv htext
  cases before with
  | nil =>
    obtain rfl : last = address := String.toList_injective (by simpa using haddress)
    exact Or.inl rfl
  | cons e rest =>
    obtain ⟨first, document⟩ := e
    refine Or.inr ⟨first, document, String.ofList (entriesText rest ++ last.toList),
      hothers (first, document) (by simp), ?_, ?_⟩
    · rw [List.cons_append, List.map_cons, List.pairwise_cons, List.map_append] at hascending
      obtain ⟨next, hnext, more, hsecond⟩ := exists_entriesText_append_eq rest last
      rw [hsecond]
      exact lt_append_of_lt (hascending.1 next hnext) more
    · apply String.toList_injective
      rw [← haddress]
      simp [entryText]

/-! ## Stores -/

namespace DirectoryStore

variable {store other later : DirectoryStore}

/-- The bytes that the digest is taken of. -/
def bundleBytes (store : DirectoryStore) : List UInt8 := store.bundleText.toUTF8.toList

theorem bundleHash_eq (store : DirectoryStore) :
    store.bundleHash = Sha256.hex (Sha256.digest store.bundleBytes) := rfl

theorem toList_bundleText (store : DirectoryStore) :
    store.bundleText.toList = entriesText store.cache.entries := by
  unfold bundleText entriesText
  rw [String.toList_join, List.flatMap_map]
  exact congrArg (List.flatMap · _) (funext fun e => String.toList_append)

/-- The bytes are the same just in case the texts of all entries are. -/
theorem bundleBytes_eq_iff : other.bundleBytes = store.bundleBytes ↔
    entriesText other.cache.entries = entriesText store.cache.entries := by
  rw [← toList_bundleText, ← toList_bundleText, String.toList_inj]
  exact ⟨toList_toUTF8_injective, fun h => by rw [bundleBytes, h]; rfl⟩

/-- All that is kept are documents whose numbers are normalised. -/
def Legible (store : DirectoryStore) : Prop := store.Keeps IsLegible

theorem legible_iff : store.Legible ↔ ∀ e ∈ store.cache.entries, IsLegible e.2 := by
  constructor
  · exact fun h e he => h e.1 e.2 (SortedMap.find?_eq_some_iff.2 he)
  · exact fun h address document hfind => h (address, document) (SortedMap.find?_eq_some_iff.1 hfind)

/-- What is read from files is legible. -/
theorem CanReach.legible {tree : FileTree} {base : String} (h : CanReach tree base store) :
    store.Legible := by
  refine h.keeps fun address content document hread => ?_
  obtain ⟨hdocument, text, -, hparse⟩ := of_documentOf_eq_ok hread
  exact ⟨hdocument, Json.normalised_of_parse? hparse⟩

/-- No address of one store begins a different address of the other. -/
def Apart (store other : DirectoryStore) : Prop :=
  ∀ address ∈ store.addresses, ∀ address' ∈ other.addresses,
    address.toList <+: address'.toList ∨ address'.toList <+: address.toList → address = address'

/-- A different store whose bytes are the same. -/
def HasDouble (store : DirectoryStore) : Prop :=
  ∃ other : DirectoryStore, other.Legible ∧ other.bundleBytes = store.bundleBytes ∧
    other.cache ≠ store.cache

theorem HasDouble.of_entries (entries : List (String × Json))
    (hascending : (entries.map Prod.fst).Pairwise (· < ·)) (hentries : ∀ e ∈ entries, IsLegible e.2)
    (htext : entriesText entries = entriesText store.cache.entries)
    (hne : entries ≠ store.cache.entries) : store.HasDouble :=
  ⟨{ store with cache := ⟨entries, hascending⟩ }, legible_iff.2 hentries, bundleBytes_eq_iff.2 htext,
    fun h => hne (congrArg SortedMap.entries h)⟩

/-- Of two documents, the first one and the address of the second one can be taken for parts of an
address. -/
theorem HasDouble.of_append_pair {before : List (String × Json)} {first second : String}
    (hstore : store.Legible) (h : store.cache.entries = before ++ [(first, v), (second, w)]) :
    store.HasDouble := by
  have hentries := legible_iff.1 hstore
  have hascending := store.cache.ascending
  rw [h] at hentries hascending
  rw [List.map_append, List.pairwise_append] at hascending
  obtain ⟨hbefore, -, hbelow⟩ := hascending
  refine .of_entries (before ++ [(first ++ v.compact ++ second, w)]) ?_ ?_ ?_ ?_
  · rw [List.map_append, List.pairwise_append]
    refine ⟨hbefore, List.pairwise_singleton _ _, fun address haddress joined hjoined => ?_⟩
    rw [List.map_singleton, List.mem_singleton] at hjoined
    rw [hjoined, String.append_assoc]
    exact lt_append_of_lt (hbelow address haddress first (by simp)) _
  · intro e he
    rcases List.mem_append.1 he with he | he
    · exact hentries e (List.mem_append_left _ he)
    · rw [List.mem_singleton.1 he]
      exact hentries (second, w) (by simp)
  · rw [h]
    simp [entryText]
  · rw [h]
    intro heq
    have hlength := congrArg List.length heq
    simp at hlength

/-- One document at a joined address can be taken for two. -/
theorem HasDouble.of_isJoined {address : String} (hstore : store.Legible)
    (h : store.cache.entries = [(address, v)]) (hjoined : IsJoined address) : store.HasDouble := by
  obtain ⟨first, document, second, hdocument, hlt, rfl⟩ := hjoined
  have hv : IsLegible v := legible_iff.1 hstore (first ++ document.compact ++ second, v) (by simp [h])
  refine .of_entries [(first, document), (second, v)] (by simpa using hlt) ?_ ?_ ?_
  · simpa using ⟨hdocument, hv⟩
  · rw [h]
    simp [entryText]
  · rw [h]
    simp

/-- A store has a double if there are two documents, or a single one at a joined address. -/
theorem hasDouble_iff (hstore : store.Legible) : store.HasDouble ↔
    2 ≤ store.addresses.length ∨ ∃ address, store.addresses = [address] ∧ IsJoined address := by
  have haddresses : store.addresses = store.cache.entries.map Prod.fst := rfl
  rcases store.cache.entries.eq_nil_or_concat' with hnil | ⟨before, ⟨second, w⟩, hlast⟩
  · refine iff_of_false ?_ (by simp [haddresses, hnil])
    rintro ⟨other, -, hbytes, hne⟩
    rw [bundleBytes_eq_iff, hnil, entriesText_nil, entriesText_eq_nil_iff] at hbytes
    exact hne (SortedMap.ext (hbytes.trans hnil.symm))
  rcases before.eq_nil_or_concat' with rfl | ⟨before, ⟨first, v⟩, rfl⟩
  · have hw : IsLegible w := legible_iff.1 hstore (second, w) (by simp [hlast])
    constructor
    · rintro ⟨other, hother, hbytes, hne⟩
      rw [bundleBytes_eq_iff, hlast] at hbytes
      rcases isJoined_of_entriesText_eq hw (legible_iff.1 hother) other.cache.ascending hbytes with
        hsame | hjoined
      · exact absurd (SortedMap.ext (hsame.trans hlast.symm)) hne
      · exact Or.inr ⟨second, by simp [haddresses, hlast], hjoined⟩
    · rintro (htwo | ⟨address, haddress, hjoined⟩)
      · simp [haddresses, hlast] at htwo
      · obtain rfl : second = address := by simpa [haddresses, hlast] using haddress
        exact .of_isJoined hstore hlast hjoined
  · have hpair : store.cache.entries = before ++ [(first, v), (second, w)] := by simpa using hlast
    refine iff_of_true (.of_append_pair hstore hpair) (Or.inl ?_)
    simp [haddresses, hlast]

/-! ## Main result -/

/-- What the bytes that are digested tell of the documents that are kept:

* they tell them from those of every store of which no address begins a different address here, or is begun
  by one;
* along a history, they tell whether documents have been added;
* but there is a different store with the same bytes as soon as there are two documents, whatever they are,
  and also if there is a single one at a joined address; and only then. -/
theorem bundleBytes_identify (hstore : store.Legible) :
    (∀ other : DirectoryStore, other.Legible → store.Apart other →
      other.bundleBytes = store.bundleBytes → other.cache = store.cache) ∧
    (∀ later, Later store later → later.bundleBytes = store.bundleBytes → later.cache = store.cache) ∧
    (store.HasDouble ↔
      2 ≤ store.addresses.length ∨ ∃ address, store.addresses = [address] ∧ IsJoined address) := by
  refine ⟨fun other hother hapart hbytes => ?_, fun later hlater hbytes => ?_, hasDouble_iff hstore⟩
  · have hkeys : ∀ d ∈ store.cache.entries, ∀ e ∈ other.cache.entries,
        d.1.toList <+: e.1.toList ∨ e.1.toList <+: d.1.toList → d.1 = e.1 := fun d hd e he =>
      hapart d.1 (List.mem_map_of_mem hd) e.1 (List.mem_map_of_mem he)
    exact SortedMap.ext (eq_of_entriesText_eq (legible_iff.1 hstore) (legible_iff.1 hother) hkeys
      (bundleBytes_eq_iff.1 hbytes).symm).symm
  · have hsublist := SortedMap.entries_sublist fun address document => hlater.kept
    exact SortedMap.ext (eq_of_sublist_of_entriesText_eq hsublist (bundleBytes_eq_iff.1 hbytes))

/-- A directory whose files all hold the same boolean. -/
def booleanTree (names : List String) : FileTree :=
  ⟨["work"], names.map fun name => (["work", name], .text "true")⟩

/-- That directory, after all files have been fetched. -/
def fetchedBooleans (names : List String) : DirectoryStore :=
  names.foldl (fun store name => (store.fetch name).2) (ofBase (booleanTree names) ".")

theorem canReach_fetchedBooleans (names : List String) :
    CanReach (booleanTree names) "." (fetchedBooleans names) := by
  have hlater (more : List String) (store : DirectoryStore) :
      Later store (more.foldl (fun store name => (store.fetch name).2) store) := by
    induction more generalizing store with
    | nil => exact .refl
    | cons name more ih => exact .head (.fetch store name) (ih _)
  exact hlater names _

/-- Two documents that have been fetched have a double. -/
theorem bundleBytes_identify_pair :
    let store := fetchedBooleans ["a.json", "b.json"]
    store.Legible ∧ store.addresses = ["a.json", "b.json"] ∧ store.HasDouble := by
  intro store
  have hlegible : store.Legible := (canReach_fetchedBooleans ["a.json", "b.json"]).legible
  have haddresses : store.addresses = ["a.json", "b.json"] := by decide +kernel
  refine ⟨hlegible, haddresses, (bundleBytes_identify hlegible).2.2.2 (Or.inl ?_)⟩
  rw [haddresses]
  rfl

/-- Two files and a single one, all of which hold the same boolean, have the same digest. -/
theorem bundleHash_not_injective :
    let store := fetchedBooleans ["a.json", "b.json"]
    let other := fetchedBooleans ["a.jsontrueb.json"]
    CanReach (booleanTree ["a.json", "b.json"]) "." store ∧
      CanReach (booleanTree ["a.jsontrueb.json"]) "." other ∧
      other.addresses ≠ store.addresses ∧ other.cache ≠ store.cache ∧
      other.bundleBytes = store.bundleBytes ∧ other.bundleHash = store.bundleHash := by
  intro store other
  have haddresses : other.addresses ≠ store.addresses := by decide +kernel
  have htext : other.bundleText = store.bundleText := by decide +kernel
  have hbytes : other.bundleBytes = store.bundleBytes := congrArg (fun text => text.toUTF8.toList) htext
  refine ⟨canReach_fetchedBooleans _, canReach_fetchedBooleans _, haddresses, ?_, hbytes, ?_⟩
  · exact fun hcache => haddresses (congrArg SortedMap.keys hcache)
  · rw [bundleHash_eq, bundleHash_eq, hbytes]

end DirectoryStore

end ShapeGraph
