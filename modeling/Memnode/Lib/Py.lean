/-
Memnode.Lib.Py — Python objects as decoders produce them.

A `str` is its code points, since `json.loads` returns lone surrogates
and `String` has none. A float is its 64 bits. The fields of a `dict`
are in insertion order; decoders build them one after the other
(`merge`), so that a later field replaces an earlier one with the same
key, in its place.
-/
import Memnode.Lib.Dict
import Memnode.Lib.Msgpack

namespace Lib

/-- A Python `str`: its code points. -/
abbrev Text := List Nat

/-- A dictionary key that a decoder can produce. -/
inductive Py.Key where
  | str (s : Text)
  | bytes (b : List UInt8)
  deriving DecidableEq

inductive Py where
  | none
  | bool (b : Bool)
  | int (i : Int)
  | float (bits : UInt64)
  | str (s : Text)
  | bytes (b : List UInt8)
  | ext (code : Nat) (data : List UInt8)
  | list (items : List Py)
  | dict (fields : List (Py.Key × Py))

namespace Py

/-- The text of a literal. -/
def text (s : String) : Text := s.toList.map Char.toNat

/-! ## Floats -/

/-- The exponent field of a double. -/
def exponent (bits : UInt64) : Nat := bits.toNat / 2 ^ 52 % 2 ^ 11

/-- The fraction field of a double. -/
def fraction (bits : UInt64) : Nat := bits.toNat % 2 ^ 52

def isNaN (bits : UInt64) : Bool := exponent bits = 2 ^ 11 - 1 ∧ fraction bits ≠ 0

def isFinite (bits : UInt64) : Bool := exponent bits ≠ 2 ^ 11 - 1

theorem isNaN_eq_false {bits : UInt64} (h : isFinite bits = true) : isNaN bits = false := by
  have hexponent := of_decide_eq_true h
  exact decide_eq_false (fun hnan => hexponent hnan.1)

/-! ## Dictionaries -/

/-- A dictionary built field by field. -/
def merge (fields : List (Key × Py)) : List (Key × Py) := (Dict.ofList fields).entries

/-- `d.get(key)`. -/
def get (fields : List (Key × Py)) (key : String) : Option Py :=
  (fields.find? (fun f => f.1 = .str (text key))).map Prod.snd

/-- `bool(v)`. -/
def truthy : Py → Bool
  | .none => false
  | .bool b => b
  | .int i => i ≠ 0
  | .float bits => bits.toNat % 2 ^ 63 ≠ 0
  | .str s => !s.isEmpty
  | .bytes b => !b.isEmpty
  | .ext _ _ => true
  | .list items => !items.isEmpty
  | .dict fields => !fields.isEmpty

mutual

/-- The levels of lists and dictionaries. -/
def nesting : Py → Nat
  | .list items => nestingItems items + 1
  | .dict fields => nestingFields fields + 1
  | _ => 0

def nestingItems : List Py → Nat
  | [] => 0
  | v :: rest => max (nesting v) (nestingItems rest)

def nestingFields : List (Key × Py) → Nat
  | [] => 0
  | (_, v) :: rest => max (nesting v) (nestingFields rest)

end

/-! ## Parts -/

/-- `w` is the object, or a part of it. -/
inductive Within (w : Py) : Py → Prop where
  | self : Within w w
  | item {v : Py} {items : List Py} : v ∈ items → Within w v → Within w (.list items)
  | field {f : Key × Py} {fields : List (Key × Py)} : f ∈ fields → Within w f.2 →
      Within w (.dict fields)

/-- No part is a NaN; the object is equal to a copy of itself. -/
def NanFree (v : Py) : Prop := ∀ bits, Within (.float bits) v → isNaN bits = false

theorem nanFree_list {items : List Py} : NanFree (.list items) ↔ ∀ v ∈ items, NanFree v := by
  constructor
  · exact fun h v hv bits hwithin => h bits (.item hv hwithin)
  · intro h bits hwithin
    cases hwithin with
    | item hv hwithin => exact h _ hv bits hwithin

/-! ## From MessagePack -/

def Key.ofMsgpack : Msgpack.Key → Key
  | .str s => .str (text s)
  | .bin b => .bytes b

mutual

/-- The object `msgpack.unpackb` returns for a value. -/
def ofMsgpack : Msgpack.Value → Py
  | .nil => .none
  | .bool b => .bool b
  | .int i => .int i
  | .float bits => .float bits
  | .str s => .str (text s)
  | .bin b => .bytes b
  | .ext code data => .ext code data
  | .array items => .list (ofItems items)
  | .map fields => .dict (merge (ofFields fields))

def ofItems : List Msgpack.Value → List Py
  | [] => []
  | v :: rest => ofMsgpack v :: ofItems rest

def ofFields : List (Msgpack.Key × Msgpack.Value) → List (Key × Py)
  | [] => []
  | (k, v) :: rest => (.ofMsgpack k, ofMsgpack v) :: ofFields rest

end

/-! ## To MessagePack -/

/-- The text as a `String`, if it has no surrogates. -/
def string (s : Text) : Option String :=
  if ∀ u ∈ s, u.isValidChar then some (String.ofList (s.map Char.ofNat)) else Option.none

def Key.toMsgpack : Key → Option Msgpack.Key
  | .str s => (string s).map .str
  | .bytes b => some (.bin b)

mutual

/-- The value `msgpack.packb` writes for an object. -/
def toMsgpack : Py → Option Msgpack.Value
  | .none => some .nil
  | .bool b => some (.bool b)
  | .int i => some (.int i)
  | .float bits => some (.float bits)
  | .str s => (string s).map .str
  | .bytes b => some (.bin b)
  | .ext code data => some (.ext code data)
  | .list items => (toItems items).map .array
  | .dict fields => (toFields fields).map .map

def toItems : List Py → Option (List Msgpack.Value)
  | [] => some []
  | v :: rest =>
      match toMsgpack v, toItems rest with
      | some v, some rest => some (v :: rest)
      | _, _ => Option.none

def toFields : List (Key × Py) → Option (List (Msgpack.Key × Msgpack.Value))
  | [] => some []
  | (k, v) :: rest =>
      match k.toMsgpack, toMsgpack v, toFields rest with
      | some k, some v, some rest => some ((k, v) :: rest)
      | _, _, _ => Option.none

end

theorem string_text (s : String) : string (text s) = some s := by
  have hvalid : ∀ u ∈ text s, u.isValidChar := by
    intro u hu
    obtain ⟨c, -, rfl⟩ := List.mem_map.mp hu
    exact c.valid
  have hchars : (text s).map Char.ofNat = s.toList := by
    simp only [text, List.map_map, Function.comp_def, Char.ofNat_toNat, List.map_id']
  rw [string, if_pos hvalid, hchars, String.ofList_toList]

theorem text_injective {s t : String} (h : text s = text t) : s = t := by
  have hstring := string_text s
  rw [h, string_text] at hstring
  exact (Option.some.inj hstring).symm

theorem text_inj {s t : String} : text s = text t ↔ s = t := ⟨text_injective, congrArg text⟩

/-! ## What came from MessagePack -/

theorem ofMsgpack_eq_bytes {v : Msgpack.Value} {b : List UInt8} (h : ofMsgpack v = .bytes b) :
    v = .bin b := by
  cases v <;> simp_all [ofMsgpack]

theorem ofMsgpack_eq_str {v : Msgpack.Value} {t : Text} (h : ofMsgpack v = .str t) :
    ∃ s, v = .str s ∧ text s = t := by
  cases v <;> simp_all [ofMsgpack]

theorem ofMsgpack_eq_dict {v : Msgpack.Value} {fields : List (Key × Py)}
    (h : ofMsgpack v = .dict fields) : ∃ body, v = .map body ∧ fields = merge (ofFields body) := by
  cases v <;> simp_all [ofMsgpack]

theorem Key.ofMsgpack_eq_str {k : Msgpack.Key} {s : String} (h : ofMsgpack k = .str (text s)) :
    k = .str s := by
  cases k with
  | str t => rw [text_injective (Key.str.inj h)]
  | bin b => cases h

theorem mem_ofFields {body : List (Msgpack.Key × Msgpack.Value)} {f : Key × Py}
    (h : f ∈ ofFields body) : ∃ g ∈ body, Key.ofMsgpack g.1 = f.1 ∧ ofMsgpack g.2 = f.2 := by
  induction body with
  | nil => simp [ofFields] at h
  | cons g rest ih =>
    simp only [ofFields, List.mem_cons] at h
    rcases h with rfl | h
    · exact ⟨g, List.mem_cons_self, rfl, rfl⟩
    · obtain ⟨g', hg', heq⟩ := ih h
      exact ⟨g', List.mem_cons_of_mem g hg', heq⟩

/-! ## What `merge` and `get` do -/

theorem mem_of_get {fields : List (Key × Py)} {key : String} {v : Py}
    (h : get fields key = some v) : (.str (text key), v) ∈ fields := by
  obtain ⟨f, hf, rfl⟩ := Option.map_eq_some_iff.mp h
  have hkey : f.1 = .str (text key) := by simpa using List.find?_some hf
  rw [← hkey]
  exact List.mem_of_find?_eq_some hf

theorem merge_of_nodup {fields : List (Key × Py)} (hnd : (fields.map Prod.fst).Nodup) :
    merge fields = fields := by rw [merge, Dict.ofList_of_nodup hnd]

theorem merge_nodup (fields : List (Key × Py)) : ((merge fields).map Prod.fst).Nodup :=
  (Dict.ofList fields).nodup

/-- A total over a merged dictionary is at most the one over all fields. -/
theorem sum_merge_le (size : Key × Py → Nat) (fields : List (Key × Py)) :
    ((merge fields).map size).sum ≤ (fields.map size).sum :=
  Dict.sumBy_ofList_le fields (fun k v => size (k, v))

/-- Two fields are part of the total. -/
theorem add_le_sum {α : Type} (size : α → Nat) {fields : List α} {f g : α} (hf : f ∈ fields)
    (hg : g ∈ fields) (hne : f ≠ g) : size f + size g ≤ (fields.map size).sum := by
  induction fields with
  | nil => simp at hf
  | cons a rest ih =>
    rw [List.map_cons, List.sum_cons]
    have hle : ∀ x ∈ rest, size x ≤ (rest.map size).sum := fun x hx =>
      List.single_le_sum (by simp) _ (List.mem_map_of_mem (f := size) hx)
    rcases List.mem_cons.mp hf with rfl | hf'
    · rcases List.mem_cons.mp hg with rfl | hg'
      · exact absurd rfl hne
      · have := hle g hg'
        omega
    · rcases List.mem_cons.mp hg with rfl | hg'
      · have := hle f hf'
        omega
      · have := ih hf' hg'
        omega

end Py

end Lib
