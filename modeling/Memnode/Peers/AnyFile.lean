/-
Memnode.Peers.AnyFile — `TrustStore(path)` on a file of any bytes.

`_load` catches a `JSONDecodeError` and an `OSError` around reading and
parsing, and nothing around the rest. Bytes that are no text, a number
that is too long and nesting that is too deep raise inside the `try`, but
as other exceptions; `peers.items()` comes after it. `Raises` lists the
four, and is exact. Every other content gives the store that its shape
asks for (`Loaded`).

Opening in text mode also turns "\r\n" and "\r" into "\n". Between tokens
of JSON both are white space, and within a string neither may stand, so
that makes no difference and is left out.
-/
import Memnode.Lib.Utf8
import Memnode.Peers.History

namespace Memnode.Peers.TrustStore

open Lib Lib.Json

/-- What the constructor raises. -/
inductive OpenError where
  /-- a `UnicodeDecodeError` -/
  | undecodable
  | raised (e : TrustError)

section Open

variable (F : FloatFormat) (g : Setting) (limit : Nat)

/-- `TrustStore(path)` for a file of these bytes: the record it begins with. -/
def openBytes (raw : List UInt8) : Except OpenError (Dict Text Entry) :=
  if g.disk then
    match Utf8.decode raw with
    | none => .error .undecodable
    | some t =>
        match load F g limit (some t) with
        | .error e => .error (.raised e)
        | .ok s => .ok s.peers
  else .ok .empty

/-- The contents that the constructor raises on. -/
inductive Raises (raw : List UInt8) : Prop where
  | undecodable (h : Utf8.decode raw = none)
  | unparsed (t : List Char) (e : Json.Error) (h : Utf8.decode raw = some t)
      (hloads : loads F limit t = .error e) (hother : e ≠ .malformed)
  | items (t : List Char) (fields : List (Py.Key × Py)) (v : Py) (h : Utf8.decode raw = some t)
      (hloads : loads F limit t = .ok (.dict fields))
      (hversion : isVersion (Py.get fields "version") = true)
      (hpeers : Py.get fields "peers" = some v) (hnot : ∀ peers, v ≠ .dict peers)

/-- The bytes are an object, as JSON. -/
def IsObject (raw : List UInt8) (fields : List (Py.Key × Py)) : Prop :=
  ∃ t, Utf8.decode raw = some t ∧ loads F limit t = .ok (.dict fields)

/-- The store that a content asks for. -/
structure Loaded (raw : List UInt8) (peers : Dict Text Entry) : Prop where
  second : ∀ fields, IsObject F limit raw fields → isVersion (Py.get fields "version") = true →
    ∀ k e, peers.get k = some e ↔ ∃ records record, Py.get fields "peers" = some (.dict records) ∧
      (.str k, .dict record) ∈ records ∧ e = Entry.ofFields record
  first : ∀ fields, IsObject F limit raw fields → isVersion (Py.get fields "version") = false →
    ∀ k e, peers.get k = some e ↔ ∃ name, (.str k, .str name) ∈ fields ∧ e = tofuRecord g name
  other : (∀ fields, ¬IsObject F limit raw fields) → peers = .empty

end Open

/-! ## What each shape gives -/

/-- A dictionary picked out of an object, one entry for a key. -/
theorem get_picked {f : Py.Key × Py → Option (Text × Entry)}
    (hkey : ∀ a b, f a = some b → a.1 = .str b.1) {fields : List (Py.Key × Py)}
    (hnd : (fields.map Prod.fst).Nodup) (k : Text) (e : Entry) :
    (Dict.ofList (fields.filterMap f)).get k = some e ↔
      ∃ v, (.str k, v) ∈ fields ∧ f (.str k, v) = some (k, e) := by
  have hkeys : ((fields.filterMap f).map Prod.fst).Nodup :=
    Dict.nodup_keys_filterMap (fun {a a' b b'} h h' heq => by rw [hkey a b h, hkey a' b' h', heq]) hnd
  rw [Dict.get_ofList_eq_some_iff hkeys, List.mem_filterMap]
  constructor
  · rintro ⟨⟨key, v⟩, hmem, hf⟩
    cases hkey _ _ hf
    exact ⟨v, hmem, hf⟩
  · rintro ⟨v, hmem, hf⟩
    exact ⟨_, hmem, hf⟩

theorem get_peersOf {records : List (Py.Key × Py)} (hnd : (records.map Prod.fst).Nodup) (k : Text)
    (e : Entry) :
    (peersOf records).get k = some e ↔
      ∃ fields, (.str k, .dict fields) ∈ records ∧ e = Entry.ofFields fields := by
  have hkey : ∀ a b, record a = some b → a.1 = .str b.1 := by
    rintro ⟨key, value⟩ b h
    cases key <;> cases value <;> cases h
    rfl
  rw [peersOf, get_picked hkey hnd]
  constructor
  · rintro ⟨v, hmem, hrecord⟩
    cases v <;> cases hrecord
    exact ⟨_, hmem, rfl⟩
  · rintro ⟨fields, hmem, rfl⟩
    exact ⟨_, hmem, rfl⟩

/-- A record of the first version comes from a name and nothing else. -/
theorem migrate_eq_some {g : Setting} {a : Py.Key × Py} {b : Text × Entry} (h : migrate g a = some b) :
    ∃ k name, a = (.str k, .str name) ∧ b = (k, tofuRecord g name) := by
  obtain ⟨key, value⟩ := a
  cases key with
  | bytes => cases h
  | str k =>
    cases value with
    | str name => exact ⟨k, name, rfl, (Option.some.inj h).symm⟩
    | _ => cases h

theorem get_migrated {fields : List (Py.Key × Py)} (hnd : (fields.map Prod.fst).Nodup) (g : Setting)
    (k : Text) (e : Entry) :
    (migrated g fields).get k = some e ↔
      ∃ name, (.str k, .str name) ∈ fields ∧ e = tofuRecord g name := by
  have hkey : ∀ a b, migrate g a = some b → a.1 = .str b.1 := by
    intro a b h
    obtain ⟨k, name, rfl, rfl⟩ := migrate_eq_some h
    rfl
  rw [migrated, get_picked hkey hnd]
  constructor
  · rintro ⟨v, hmem, hmigrate⟩
    obtain ⟨k', name, hfield, hrecord⟩ := migrate_eq_some hmigrate
    obtain ⟨-, he⟩ := Prod.mk.inj hrecord
    exact ⟨name, (Prod.mk.inj hfield).2 ▸ hmem, he⟩
  · rintro ⟨name, hmem, rfl⟩
    exact ⟨_, hmem, rfl⟩

/-! ## Every content -/

section Contents

variable {F : FloatFormat} {g : Setting} {limit : Nat} {raw : List UInt8} {t : List Char}

/-- What is no object, whatever else it is. -/
theorem loaded_empty (h : ∀ fields, ¬IsObject F limit raw fields) : Loaded F g limit raw .empty where
  second := fun fields hobject => absurd hobject (h fields)
  first := fun fields hobject => absurd hobject (h fields)
  other := fun _ => rfl

theorem isObject_iff (ht : Utf8.decode raw = some t) (fields : List (Py.Key × Py)) :
    IsObject F limit raw fields ↔ loads F limit t = .ok (.dict fields) := by
  constructor
  · rintro ⟨t', ht', hloads⟩
    cases ht.symm.trans ht'
    exact hloads
  · exact fun hloads => ⟨t, ht, hloads⟩

theorem IsObject.unique {fields fields' : List (Py.Key × Py)} (h : IsObject F limit raw fields)
    (h' : IsObject F limit raw fields') : fields' = fields := by
  obtain ⟨t, ht, hloads⟩ := h
  cases hloads.symm.trans ((isObject_iff ht fields').mp h')
  rfl

/-- An object of the second version whose `peers` is missing or an object. -/
theorem openBytes_second (hg : g.Fits 1) (ht : Utf8.decode raw = some t)
    {fields records : List (Py.Key × Py)} (hloads : loads F limit t = .ok (.dict fields))
    (hversion : isVersion (Py.get fields "version") = true)
    (hpeers : Py.get fields "peers" = some (.dict records) ∨
      (Py.get fields "peers" = none ∧ records = [])) :
    openBytes F g limit raw = .ok (peersOf records) ∧ Loaded F g limit raw (peersOf records) := by
  have hobject : IsObject F limit raw fields := ⟨t, ht, hloads⟩
  have hdefault : (Py.get fields "peers").getD (.dict []) = .dict records := by
    rcases hpeers with h | ⟨h, rfl⟩ <;> rw [h] <;> rfl
  refine ⟨?_, ?_, ?_, fun hnone => absurd hobject (hnone fields)⟩
  · simp only [openBytes, load, hg.disk, if_true, ht, hloads, hversion, hdefault]
  · intro fields' h _ k e
    rw [hobject.unique h]
    rcases hpeers with hget | ⟨hget, rfl⟩
    · have hnd := (loads_nodup hloads).2 _ (Py.mem_of_get hget) records rfl
      rw [get_peersOf hnd]
      constructor
      · rintro ⟨record, hmem, he⟩
        exact ⟨records, record, hget, hmem, he⟩
      · rintro ⟨records', record, hget', hmem, he⟩
        cases hget.symm.trans hget'
        exact ⟨record, hmem, he⟩
    · rw [get_peersOf (by simp)]
      simp [hget]
  · intro fields' h hversion'
    rw [hobject.unique h, hversion] at hversion'
    cases hversion'

/-- Any other object. -/
theorem openBytes_first (hg : g.Fits 1) (ht : Utf8.decode raw = some t)
    {fields : List (Py.Key × Py)} (hloads : loads F limit t = .ok (.dict fields))
    (hversion : isVersion (Py.get fields "version") = false) :
    openBytes F g limit raw = .ok (migrated g fields) ∧
      Loaded F g limit raw (migrated g fields) := by
  have hobject : IsObject F limit raw fields := ⟨t, ht, hloads⟩
  obtain ⟨hclean, hlisted⟩ := migrated_clean (g := g) hloads
  obtain ⟨t', hsave, -⟩ :=
    save_clean (F := F) hg (Nat.le_refl 4) (s := ⟨migrated g fields, some t⟩) hclean hlisted
  refine ⟨?_, ?_, ?_, fun hnone => absurd hobject (hnone fields)⟩
  · simp only [openBytes, load, hg.disk, if_true, ht, hloads, hversion, hsave, Bool.false_eq_true,
      if_false]
  · intro fields' h hversion'
    rw [hobject.unique h, hversion] at hversion'
    cases hversion'
  · intro fields' h _ k e
    rw [hobject.unique h]
    exact get_migrated (loads_nodup hloads).1 g k e

/-- A content that the constructor raises on is none that it accepts. -/
theorem raises_error (hg : g.Fits 1) (h : Raises F limit raw) :
    ∃ e, openBytes F g limit raw = .error e := by
  cases h with
  | undecodable h => exact ⟨.undecodable, by simp only [openBytes, hg.disk, if_true, h]⟩
  | unparsed t e h hloads hother =>
    refine ⟨.raised (.loads e), ?_⟩
    cases e with
    | malformed => exact absurd rfl hother
    | tooLong => simp only [openBytes, load, hg.disk, if_true, h, hloads]
    | tooDeep => simp only [openBytes, load, hg.disk, if_true, h, hloads]
  | items t fields v h hloads hversion hpeers hnot =>
    refine ⟨.raised .items, ?_⟩
    cases v with
    | dict peers => exact absurd rfl (hnot peers)
    | _ => simp only [openBytes, load, hg.disk, if_true, h, hloads, hversion, hpeers,
        Option.getD_some]

/-- Every other content is loaded as its shape asks for. -/
theorem loaded_of_not_raises (hg : g.Fits 1) (h : ¬Raises F limit raw) :
    ∃ peers, openBytes F g limit raw = .ok peers ∧ Loaded F g limit raw peers := by
  cases ht : Utf8.decode raw with
  | none => exact absurd (.undecodable ht) h
  | some t =>
    cases hloads : loads F limit t with
    | error e =>
      cases e with
      | malformed =>
        refine ⟨.empty, by simp only [openBytes, load, hg.disk, if_true, ht, hloads], loaded_empty ?_⟩
        intro fields hobject
        rw [isObject_iff ht, hloads] at hobject
        cases hobject
      | tooLong => exact absurd (.unparsed t _ ht hloads (by decide)) h
      | tooDeep => exact absurd (.unparsed t _ ht hloads (by decide)) h
    | ok v =>
      cases v with
      | dict fields =>
        cases hversion : isVersion (Py.get fields "version") with
        | false => exact ⟨_, openBytes_first hg ht hloads hversion⟩
        | true =>
          cases hget : Py.get fields "peers" with
          | none => exact ⟨_, openBytes_second hg ht hloads hversion (.inr ⟨hget, rfl⟩)⟩
          | some v =>
            by_cases hdict : ∃ records, v = .dict records
            · obtain ⟨records, rfl⟩ := hdict
              exact ⟨_, openBytes_second hg ht hloads hversion (.inl hget)⟩
            · exact absurd (.items t fields v ht hloads hversion hget
                (fun records heq => hdict ⟨records, heq⟩)) h
      | _ =>
        refine ⟨.empty, by simp only [openBytes, load, hg.disk, if_true, ht, hloads], loaded_empty ?_⟩
        intro fields hobject
        rw [isObject_iff ht, hloads] at hobject
        cases hobject

/-- A file of the first version is read. -/
theorem not_raises_first {raw : List UInt8} {t : List Char} {fields : List (Py.Key × Py)}
    (hdecode : Utf8.decode raw = some t) (hloads : loads F limit t = .ok (.dict fields))
    (hfirst : isVersion (Py.get fields "version") = false) : ¬Raises F limit raw := by
  intro h
  cases h with
  | undecodable h => cases hdecode.symm.trans h
  | unparsed t' e h hbad _ =>
    cases hdecode.symm.trans h
    cases hloads.symm.trans hbad
  | items t' fields' v h hfields hversion _ _ =>
    cases hdecode.symm.trans h
    cases hloads.symm.trans hfields
    rw [hfirst] at hversion
    exact absurd hversion Bool.false_ne_true

/-- **Opening a trust file of any bytes.** With a file system that works
and room to write a migrated record, the constructor raises exactly on
the four contents of `Raises`, and otherwise has the store that the
content asks for. -/
theorem any_file_loads_iff (hg : g.Fits 1) (raw : List UInt8) :
    ((∃ e, openBytes F g limit raw = .error e) ↔ Raises F limit raw) ∧
      (¬Raises F limit raw →
        ∃ peers, openBytes F g limit raw = .ok peers ∧ Loaded F g limit raw peers) := by
  refine ⟨⟨?_, raises_error hg⟩, loaded_of_not_raises hg⟩
  rintro ⟨e, he⟩
  by_contra hnot
  obtain ⟨peers, hok, -⟩ := loaded_of_not_raises hg hnot
  rw [hok] at he
  cases he

/-- A file with one name, of the first version. -/
theorem any_file_loads_iff_pc :
    ∃ peers, openBytes .spelled plainSetting 4 (Utf8.encode pcFile) = .ok peers ∧
      peers.get (Py.text "ab") = some (tofuRecord plainSetting (Py.text "pc")) := by
  have hdecode := Utf8.decode_encode pcFile
  have hloads : loads .spelled 4 pcFile
      = .ok (.dict [(.str (Py.text "ab"), .str (Py.text "pc"))]) := rfl
  have hfirst : isVersion (Py.get [(.str (Py.text "ab"), .str (Py.text "pc"))] "version") = false :=
    rfl
  have hnot : ¬Raises .spelled 4 (Utf8.encode pcFile) := not_raises_first hdecode hloads hfirst
  obtain ⟨peers, hopen, hloaded⟩ :=
    (any_file_loads_iff (F := .spelled) plainSetting_fits (Utf8.encode pcFile)).2 hnot
  refine ⟨peers, hopen, ?_⟩
  exact (hloaded.first _ ⟨pcFile, hdecode, hloads⟩ hfirst _ _).mpr ⟨_, List.mem_cons_self, rfl⟩

/-- `{"version":2,"peers":[]}`. -/
def listOfPeers : List Char :=
  ['{', '"', 'v', 'e', 'r', 's', 'i', 'o', 'n', '"', ':', '2', ',', '"', 'p', 'e', 'e', 'r', 's',
    '"', ':', '[', ']', '\x7d']

/-- A file of the second version whose `peers` is a list asks for the
empty store, and the constructor raises. So it does for a byte 255. -/
theorem list_of_peers_raises :
    openBytes .spelled plainSetting 4 (Utf8.encode listOfPeers) = .error (.raised .items) ∧
      openBytes .spelled plainSetting 4 [255] = .error .undecodable := by
  have hdecode := Utf8.decode_encode listOfPeers
  have hinvalid : Utf8.decode [255] = none := by decide +kernel
  refine ⟨?_, ?_⟩
  · simp only [openBytes, plainSetting, if_true, hdecode]
    rfl
  · simp only [openBytes, plainSetting, if_true, hinvalid]

end Contents

end Memnode.Peers.TrustStore
