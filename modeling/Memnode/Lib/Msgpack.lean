/-
Lib.Msgpack — the MessagePack format: values, decoder, encoder.

The decoder takes a value off the front of its input, with a bound on
the nesting, and `unpackb` accepts exactly the strings that are one
value. It is stable, hence self-delimiting (`unpackb_selfDelimiting`).
The encoder writes the shortest form and nests less deeply than the
decoder can, so that `unpackb_packb` is the round trip of everything
that is written: an induction over the value, with one lemma for each
kind of header. The last sections say how long an encoding is, at least
and at most.
-/
import Mathlib.Algebra.Order.BigOperators.Group.List
import Memnode.Lib.Parser

namespace Lib.Msgpack

open Lib.Parser

/-- A map key: the decoder accepts text and byte strings only. -/
inductive Key where
  | str (s : String)
  | bin (b : List UInt8)
  deriving DecidableEq

/-- A MessagePack value. A float is the 64 bits of a double. -/
inductive Value where
  | nil
  | bool (b : Bool)
  | int (i : Int)
  | float (bits : UInt64)
  | str (s : String)
  | bin (b : List UInt8)
  | ext (code : Nat) (data : List UInt8)
  | array (items : List Value)
  | map (fields : List (Key × Value))

/-- A key as a value of its own. -/
def Key.toValue : Key → Value
  | .str s => .str s
  | .bin b => .bin b

def utf8 (s : String) : List UInt8 := s.toByteArray.data.toList

/-! ## Floats -/

/-- The double with these fields. -/
def ofParts (sign exponent fraction : Nat) : UInt64 :=
  UInt64.ofNat (sign * 2 ^ 63 + exponent * 2 ^ 52 + fraction)

/-- A single as a double. -/
def widen (bits : Nat) : UInt64 :=
  let sign := bits / 2 ^ 31
  let exponent := bits / 2 ^ 23 % 2 ^ 8
  let fraction := bits % 2 ^ 23
  if exponent = 2 ^ 8 - 1 then ofParts sign (2 ^ 11 - 1) (fraction * 2 ^ 29)
  else if exponent ≠ 0 then ofParts sign (exponent + 896) (fraction * 2 ^ 29)
  else if fraction = 0 then ofParts sign 0 0
  else
    -- a subnormal single is a normal double
    let top := fraction.log2
    ofParts sign (top + 874) (fraction * 2 ^ (52 - top) - 2 ^ 52)

/-! ## Decoding -/

/-- A text of `n` bytes. -/
def strOf (n : Nat) : Parser Value :=
  (takeN n).bind (fun b =>
    match String.fromUTF8? ⟨b.toArray⟩ with
    | some s => .pure (.str s)
    | none => .fail)

def binOf (n : Nat) : Parser Value := (takeN n).bind (fun b => .pure (.bin b))

/-- A float of `w` bytes, with the meaning of its bits. -/
def floatOf (w : Nat) (f : Nat → UInt64) : Parser Value :=
  (uint w).bind (fun n => .pure (.float (f n)))

/-- Extension values are those of an application, and timestamps: seconds
in four bytes, or with nanoseconds in eight or twelve. -/
def extOk (code : Nat) (data : List UInt8) : Bool :=
  code < 128 ||
    (code = 255 && (data.length = 4 ||
      data.length = 8 && BigEndian.unpack data / 2 ^ 34 < 10 ^ 9 ||
      data.length = 12 && BigEndian.unpack (data.take 4) < 10 ^ 9))

def extOf (n : Nat) : Parser Value :=
  (uint 1).bind (fun code => (takeN n).bind (fun b =>
    if extOk code b then .pure (.ext code b) else .fail))

def uintOf (w : Nat) : Parser Value := (uint w).bind (fun n => .pure (.int n))

/-- A two's complement number of `w` bytes. -/
def intOf (w : Nat) : Parser Value :=
  (uint w).bind (fun n =>
    .pure (.int (if 2 * n < 256 ^ w then (n : Int) else (n : Int) - (256 : Int) ^ w)))

def arrayOf (dec : Parser Value) (n : Nat) : Parser Value :=
  (dec.many n).bind (fun items => .pure (.array items))

/-- One field of a map. -/
def fieldOf (dec : Parser Value) : Parser (Key × Value) :=
  dec.bind (fun k =>
    match k with
    | .str s => dec.bind (fun v => .pure (.str s, v))
    | .bin b => dec.bind (fun v => .pure (.bin b, v))
    | _ => .fail)

def mapOf (dec : Parser Value) (n : Nat) : Parser Value :=
  ((fieldOf dec).many n).bind (fun fields => .pure (.map fields))

/-- The formats with a first byte of their own. -/
def tagged (dec : Parser Value) : Nat → Parser Value
  | 0xc0 => .pure .nil
  | 0xc2 => .pure (.bool false)
  | 0xc3 => .pure (.bool true)
  | 0xc4 => (uint 1).bind binOf
  | 0xc5 => (uint 2).bind binOf
  | 0xc6 => (uint 4).bind binOf
  | 0xc7 => (uint 1).bind extOf
  | 0xc8 => (uint 2).bind extOf
  | 0xc9 => (uint 4).bind extOf
  | 0xca => floatOf 4 widen
  | 0xcb => floatOf 8 UInt64.ofNat
  | 0xcc => uintOf 1
  | 0xcd => uintOf 2
  | 0xce => uintOf 4
  | 0xcf => uintOf 8
  | 0xd0 => intOf 1
  | 0xd1 => intOf 2
  | 0xd2 => intOf 4
  | 0xd3 => intOf 8
  | 0xd4 => extOf 1
  | 0xd5 => extOf 2
  | 0xd6 => extOf 4
  | 0xd7 => extOf 8
  | 0xd8 => extOf 16
  | 0xd9 => (uint 1).bind strOf
  | 0xda => (uint 2).bind strOf
  | 0xdb => (uint 4).bind strOf
  | 0xdc => (uint 2).bind (arrayOf dec)
  | 0xdd => (uint 4).bind (arrayOf dec)
  | 0xde => (uint 2).bind (mapOf dec)
  | 0xdf => (uint 4).bind (mapOf dec)
  | _ => .fail

/-- What follows a first byte, with the parser for nested values. -/
def body (dec : Parser Value) (t : Nat) : Parser Value :=
  if t < 0x80 then .pure (.int t)
  else if t < 0x90 then mapOf dec (t - 0x80)
  else if t < 0xa0 then arrayOf dec (t - 0x90)
  else if t < 0xc0 then strOf (t - 0xa0)
  else if t < 0xe0 then tagged dec t
  else .pure (.int ((t : Int) - 256))

/-- A value with at most `depth` levels. -/
def decode : Nat → Parser Value
  | 0 => .fail
  | depth + 1 => byte.bind (fun t => body (decode depth) t.toNat)

/-- The nesting the decoder supports: containers 1024 deep, and what is in
the last one. -/
def maxDepth : Nat := 1025

/-- One value and nothing after it. -/
def unpackb (x : List UInt8) : Option Value :=
  match decode maxDepth x with
  | some (v, []) => some v
  | _ => none

/-! ## Encoding -/

/-- The first byte of a format that carries a number, and the number:
in the byte itself below `limit`, else in the first width that holds it. -/
def header (base limit : Nat) (wider : List (Nat × Nat)) (n : Nat) : Option (List UInt8) :=
  if n < limit then some [UInt8.ofNat (base + n)]
  else (wider.find? (fun p => n < 256 ^ p.2)).map
    (fun p => UInt8.ofNat p.1 :: BigEndian.pack p.2 n)

def strHeader : Nat → Option (List UInt8) := header 0xa0 32 [(0xd9, 1), (0xda, 2), (0xdb, 4)]

def binHeader : Nat → Option (List UInt8) := header 0 0 [(0xc4, 1), (0xc5, 2), (0xc6, 4)]

def arrayHeader : Nat → Option (List UInt8) := header 0x90 16 [(0xdc, 2), (0xdd, 4)]

def mapHeader : Nat → Option (List UInt8) := header 0x80 16 [(0xde, 2), (0xdf, 4)]

/-- Integers from `-2 ^ 63` to `2 ^ 64 - 1`. -/
def encodeInt (i : Int) : Option (List UInt8) :=
  if 0 ≤ i then header 0 0x80 [(0xcc, 1), (0xcd, 2), (0xce, 4), (0xcf, 8)] i.toNat
  else if -32 ≤ i then some [UInt8.ofNat (256 + i).toNat]
  else ([(0xd0, 1), (0xd1, 2), (0xd2, 4), (0xd3, 8)].find? (fun p => -(256 : Int) ^ p.2 ≤ 2 * i)).map
    (fun p => UInt8.ofNat p.1 :: BigEndian.pack p.2 ((256 : Int) ^ p.2 + i).toNat)

def encodeStr (s : String) : Option (List UInt8) :=
  (strHeader (utf8 s).length).map (· ++ utf8 s)

def encodeBin (b : List UInt8) : Option (List UInt8) := (binHeader b.length).map (· ++ b)

/-- Lengths of extension data with a first byte of their own. -/
def fixedExt : List (Nat × Nat) := [(1, 0xd4), (2, 0xd5), (4, 0xd6), (8, 0xd7), (16, 0xd8)]

def extHeader (n : Nat) : Option (List UInt8) :=
  match fixedExt.find? (fun p => p.1 = n) with
  | some p => some [UInt8.ofNat p.2]
  | none => header 0 0 [(0xc7, 1), (0xc8, 2), (0xc9, 4)] n

def encodeExt (code : Nat) (data : List UInt8) : Option (List UInt8) :=
  if extOk code data then (extHeader data.length).map (· ++ (UInt8.ofNat code :: data)) else none

def encodeKey : Key → Option (List UInt8)
  | .str s => encodeStr s
  | .bin b => encodeBin b

mutual

/-- `none` where the value does not fit the format. -/
def encode : Value → Option (List UInt8)
  | .nil => some [0xc0]
  | .bool false => some [0xc2]
  | .bool true => some [0xc3]
  | .int i => encodeInt i
  | .float bits => some (0xcb :: BigEndian.pack 8 bits.toNat)
  | .str s => encodeStr s
  | .bin b => encodeBin b
  | .ext code data => encodeExt code data
  | .array items =>
      match arrayHeader items.length, encodeItems items with
      | some h, some b => some (h ++ b)
      | _, _ => none
  | .map fields =>
      match mapHeader fields.length, encodeFields fields with
      | some h, some b => some (h ++ b)
      | _, _ => none

def encodeItems : List Value → Option (List UInt8)
  | [] => some []
  | v :: rest =>
      match encode v, encodeItems rest with
      | some a, some b => some (a ++ b)
      | _, _ => none

def encodeFields : List (Key × Value) → Option (List UInt8)
  | [] => some []
  | (k, v) :: rest =>
      match encodeKey k, encode v, encodeFields rest with
      | some a, some b, some c => some (a ++ (b ++ c))
      | _, _, _ => none

end

/-! ## Self-delimiting -/

theorem stable_strOf (n : Nat) : Stable (strOf n) := by
  refine (stable_takeN n).bind (fun b => ?_)
  split
  · exact stable_pure _
  · exact stable_fail

theorem stable_binOf (n : Nat) : Stable (binOf n) := (stable_takeN n).bind (fun _ => stable_pure _)

theorem stable_floatOf (w : Nat) (f : Nat → UInt64) : Stable (floatOf w f) :=
  (stable_uint w).bind (fun _ => stable_pure _)

theorem stable_extOf (n : Nat) : Stable (extOf n) := by
  refine (stable_uint 1).bind (fun code => (stable_takeN n).bind (fun b => ?_))
  split
  · exact stable_pure _
  · exact stable_fail

theorem stable_uintOf (w : Nat) : Stable (uintOf w) := (stable_uint w).bind (fun _ => stable_pure _)

theorem stable_intOf (w : Nat) : Stable (intOf w) := (stable_uint w).bind (fun _ => stable_pure _)

section Nested

variable {dec : Parser Value} (h : Stable dec)

include h

theorem stable_arrayOf (n : Nat) : Stable (arrayOf dec n) :=
  (h.many n).bind (fun _ => stable_pure _)

theorem stable_fieldOf : Stable (fieldOf dec) := by
  refine h.bind (fun k => ?_)
  split
  · exact h.bind (fun _ => stable_pure _)
  · exact h.bind (fun _ => stable_pure _)
  · exact stable_fail

theorem stable_mapOf (n : Nat) : Stable (mapOf dec n) :=
  ((stable_fieldOf h).many n).bind (fun _ => stable_pure _)

theorem stable_tagged (t : Nat) : Stable (tagged dec t) := by
  unfold tagged
  split <;> first
    | exact stable_pure _
    | exact stable_fail
    | exact stable_floatOf _ _
    | exact stable_extOf _
    | exact stable_uintOf _
    | exact stable_intOf _
    | exact (stable_uint _).bind stable_binOf
    | exact (stable_uint _).bind stable_extOf
    | exact (stable_uint _).bind stable_strOf
    | exact (stable_uint _).bind (stable_arrayOf h)
    | exact (stable_uint _).bind (stable_mapOf h)

theorem stable_body (t : Nat) : Stable (body dec t) := by
  unfold body
  repeat' split
  · exact stable_pure _
  · exact stable_mapOf h _
  · exact stable_arrayOf h _
  · exact stable_strOf _
  · exact stable_tagged h _
  · exact stable_pure _

end Nested

theorem stable_decode (depth : Nat) : Stable (decode depth) := by
  induction depth with
  | zero => exact stable_fail
  | succ depth ih => exact stable_byte.bind (fun t => stable_body ih t.toNat)

theorem unpackb_eq_some {x : List UInt8} {v : Value} (h : unpackb x = some v) :
    decode maxDepth x = some (v, []) := by
  unfold unpackb at h
  split at h
  · rename_i heq
    cases h
    exact heq
  · cases h

/-- Of two accepted strings, neither is a proper beginning of the other. -/
theorem unpackb_selfDelimiting {x y s t : List UInt8} {v w : Value} (hx : unpackb x = some v)
    (hy : unpackb y = some w) (h : x ++ s = y ++ t) : x = y :=
  (stable_decode maxDepth).eq_of_append (unpackb_eq_some hx) (unpackb_eq_some hy) h

/-! ## Round trip -/

mutual

/-- The levels of a value. -/
def depth : Value → Nat
  | .array items => depthItems items + 1
  | .map fields => depthFields fields + 1
  | _ => 1

def depthItems : List Value → Nat
  | [] => 0
  | v :: rest => max (depth v) (depthItems rest)

def depthFields : List (Key × Value) → Nat
  | [] => 0
  | (_, v) :: rest => max (depth v) (depthFields rest)

end

theorem toNat_ofNat {n : Nat} (h : n < 256) : (UInt8.ofNat n).toNat = n := by
  simp only [UInt8.toNat_ofNat', Nat.mod_eq_of_lt h]

/-- A header leads to the parser for its number. -/
theorem reads_header {dec : Parser Value} {base limit n : Nat} {wider : List (Nat × Nat)}
    {k : Nat → Parser Value} {h b : List UInt8} {v : Value} (hbase : base + limit ≤ 256)
    (hfix : ∀ m < limit, body dec (base + m) = k m)
    (hwide : ∀ p ∈ wider, p.1 < 256 ∧ body dec p.1 = (uint p.2).bind k)
    (hh : header base limit wider n = some h) (hk : Reads (k n) b v) :
    Reads (byte.bind (fun t => body dec t.toNat)) (h ++ b) v := by
  unfold header at hh
  split at hh
  · rename_i hlt
    cases hh
    refine (reads_byte _).bind ?_
    rw [toNat_ofNat (by omega), hfix n hlt]
    exact hk
  · obtain ⟨p, hp, rfl⟩ := Option.map_eq_some_iff.mp hh
    have hfit : n < 256 ^ p.2 := by simpa using List.find?_some hp
    obtain ⟨hp1, hbody⟩ := hwide p (List.mem_of_find?_eq_some hp)
    refine (reads_byte _).bind (y := BigEndian.pack p.2 n ++ b) ?_
    rw [toNat_ofNat hp1, hbody]
    exact (reads_uint hfit).bind hk

theorem body_fix {dec : Parser Value} {m : Nat} (hm : m < 0x80) :
    body dec m = .pure (.int m) := by simp [body, hm]

theorem body_map {dec : Parser Value} {m : Nat} (hm : m < 16) : body dec (0x80 + m) = mapOf dec m := by
  rw [body, if_neg (by omega), if_pos (by omega), Nat.add_sub_cancel_left]

theorem body_array {dec : Parser Value} {m : Nat} (hm : m < 16) :
    body dec (0x90 + m) = arrayOf dec m := by
  rw [body, if_neg (by omega), if_neg (by omega), if_pos (by omega), Nat.add_sub_cancel_left]

theorem body_str {dec : Parser Value} {m : Nat} (hm : m < 32) : body dec (0xa0 + m) = strOf m := by
  rw [body, if_neg (by omega), if_neg (by omega), if_neg (by omega), if_pos (by omega),
    Nat.add_sub_cancel_left]

section Scalars

variable (d : Nat)

theorem reads_strOf (s : String) : Reads (strOf (utf8 s).length) (utf8 s) (.str s) := by
  have hvalid : String.fromUTF8? ⟨(utf8 s).toArray⟩ = some s := by
    have harr : (⟨(utf8 s).toArray⟩ : ByteArray) = s.toByteArray := by simp [utf8]
    rw [harr, String.fromUTF8?, dif_pos s.isValidUTF8]
    rfl
  have h := (reads_takeN (rfl : (utf8 s).length = (utf8 s).length)).bind
    (f := fun b => match String.fromUTF8? ⟨b.toArray⟩ with
      | some s => .pure (.str s)
      | none => .fail) (y := []) (b := Value.str s) (by rw [hvalid]; exact reads_pure _)
  rwa [List.append_nil] at h

theorem reads_encodeStr {s : String} {b : List UInt8} (h : encodeStr s = some b) :
    Reads (decode (d + 1)) b (.str s) := by
  obtain ⟨hd, hh, rfl⟩ := Option.map_eq_some_iff.mp h
  refine reads_header (by decide) (fun m hm => body_str hm) ?_ hh (reads_strOf s)
  intro p hp
  simp only [List.mem_cons, List.not_mem_nil, or_false] at hp
  rcases hp with rfl | rfl | rfl <;> exact ⟨by decide, rfl⟩

theorem reads_encodeBin {x b : List UInt8} (h : encodeBin x = some b) :
    Reads (decode (d + 1)) b (.bin x) := by
  obtain ⟨hd, hh, rfl⟩ := Option.map_eq_some_iff.mp h
  refine reads_header (k := binOf) (by decide) (fun m hm => absurd hm (Nat.not_lt_zero m)) ?_ hh
    ((reads_takeN rfl).map Value.bin)
  intro p hp
  simp only [List.mem_cons, List.not_mem_nil, or_false] at hp
  rcases hp with rfl | rfl | rfl <;> exact ⟨by decide, rfl⟩

theorem reads_extOf {code : Nat} {data : List UInt8} (h : extOk code data = true) :
    Reads (extOf data.length) (UInt8.ofNat code :: data) (.ext code data) := by
  have hcode : code < 256 ^ 1 := by
    simp only [extOk, Bool.or_eq_true, Bool.and_eq_true, decide_eq_true_eq] at h
    omega
  have hbyte : BigEndian.pack 1 code = [UInt8.ofNat code] := by simp [BigEndian.pack]
  have hread := (reads_uint hcode).bind (f := fun code => (takeN data.length).bind (fun b =>
    if extOk code b then .pure (.ext code b) else .fail)) (y := data ++ []) (b := Value.ext code data)
    ((reads_takeN rfl).bind (by rw [if_pos h]; exact reads_pure _))
  rwa [hbyte, List.append_nil] at hread

theorem reads_encodeExt {code : Nat} {data b : List UInt8} (h : encodeExt code data = some b) :
    Reads (decode (d + 1)) b (.ext code data) := by
  unfold encodeExt at h
  split at h
  · rename_i hok
    obtain ⟨hd, hh, rfl⟩ := Option.map_eq_some_iff.mp h
    unfold extHeader at hh
    split at hh
    · rename_i p hp
      cases hh
      have hlength : p.1 = data.length := by simpa using List.find?_some hp
      have htag : p.2 < 256 ∧ body (decode d) p.2 = extOf p.1 := by
        have hmem := List.mem_of_find?_eq_some hp
        simp only [fixedExt, List.mem_cons, List.not_mem_nil, or_false] at hmem
        rcases hmem with rfl | rfl | rfl | rfl | rfl <;> exact ⟨by decide, rfl⟩
      refine (reads_byte _).bind ?_
      rw [toNat_ofNat htag.1, htag.2, hlength]
      exact reads_extOf hok
    · refine reads_header (k := extOf) (by decide) (fun m hm => absurd hm (Nat.not_lt_zero m)) ?_ hh
        (reads_extOf hok)
      intro p hp
      simp only [List.mem_cons, List.not_mem_nil, or_false] at hp
      rcases hp with rfl | rfl | rfl <;> exact ⟨by decide, rfl⟩
  · cases h

theorem reads_encodeKey {k : Key} {b : List UInt8} (h : encodeKey k = some b) :
    Reads (decode (d + 1)) b k.toValue := by
  cases k with
  | str s => exact reads_encodeStr d h
  | bin x => exact reads_encodeBin d h

/-- Two's complement. -/
theorem reads_intOf {w : Nat} {i : Int} (hneg : i < 0) (hlow : -(256 : Int) ^ w ≤ 2 * i) :
    Reads (intOf w) (BigEndian.pack w ((256 : Int) ^ w + i).toNat) (.int i) := by
  have hcast : ((256 ^ w : Nat) : Int) = (256 : Int) ^ w := by push_cast; rfl
  have hpos : (0 : Int) < (256 : Int) ^ w := by
    rw [← hcast]
    exact_mod_cast Nat.pow_pos (by decide : 0 < 256)
  have hlt : ((256 : Int) ^ w + i).toNat < 256 ^ w := by
    have : ((256 : Int) ^ w + i).toNat < ((256 ^ w : Nat) : Int) := by rw [hcast]; omega
    exact_mod_cast this
  have h := (reads_uint hlt).map (fun n =>
    Value.int (if 2 * n < 256 ^ w then (n : Int) else (n : Int) - (256 : Int) ^ w))
  have hbig : ¬ 2 * ((256 : Int) ^ w + i).toNat < 256 ^ w := by
    intro hc
    have : (2 * ((256 : Int) ^ w + i).toNat : Int) < ((256 ^ w : Nat) : Int) := by exact_mod_cast hc
    rw [hcast] at this
    omega
  rw [if_neg hbig, Int.toNat_of_nonneg (by omega)] at h
  rwa [show (256 : Int) ^ w + i - (256 : Int) ^ w = i by omega] at h

theorem reads_encodeInt {i : Int} {b : List UInt8} (h : encodeInt i = some b) :
    Reads (decode (d + 1)) b (.int i) := by
  unfold encodeInt at h
  split at h
  · rename_i hpos
    have hfix : ∀ m < 0x80, body (decode d) (0 + m) = .pure (.int m) := by
      intro m hm
      rw [Nat.zero_add]
      exact body_fix hm
    have hwide : ∀ p ∈ [(0xcc, 1), (0xcd, 2), (0xce, 4), (0xcf, 8)], p.1 < 256 ∧
        body (decode d) p.1 = (uint p.2).bind (fun n => .pure (.int n)) := by
      intro p hp
      simp only [List.mem_cons, List.not_mem_nil, or_false] at hp
      rcases hp with rfl | rfl | rfl | rfl <;> exact ⟨by decide, rfl⟩
    have hread := reads_header (by decide) hfix hwide h (reads_pure (Value.int i.toNat))
    rwa [List.append_nil, Int.toNat_of_nonneg hpos] at hread
  · rename_i hneg
    split at h
    · rename_i hsmall
      cases h
      have hlt : (256 + i).toNat < 256 := by omega
      have hge : 0xe0 ≤ (256 + i).toNat := by omega
      have hbody : body (decode d) (256 + i).toNat = .pure (.int i) := by
        rw [body, if_neg (by omega), if_neg (by omega), if_neg (by omega), if_neg (by omega),
          if_neg (by omega), show (((256 + i).toNat : Nat) : Int) - 256 = i by omega]
      refine (reads_byte _).bind (y := []) ?_
      rw [toNat_ofNat hlt, hbody]
      exact reads_pure _
    · obtain ⟨p, hp, rfl⟩ := Option.map_eq_some_iff.mp h
      have hfit : -(256 : Int) ^ p.2 ≤ 2 * i := by simpa using List.find?_some hp
      have hmem := List.mem_of_find?_eq_some hp
      have htag : p.1 < 256 ∧ body (decode d) p.1 = intOf p.2 := by
        simp only [List.mem_cons, List.not_mem_nil, or_false] at hmem
        rcases hmem with rfl | rfl | rfl | rfl <;> exact ⟨by decide, rfl⟩
      refine (reads_byte _).bind (y := BigEndian.pack p.2 _) ?_
      rw [toNat_ofNat htag.1, htag.2]
      exact reads_intOf (by omega) hfit

end Scalars

theorem reads_array {d : Nat} {items : List Value} {h b : List UInt8}
    (hh : arrayHeader items.length = some h)
    (hitems : Reads ((decode d).many items.length) b items) :
    Reads (decode (d + 1)) (h ++ b) (.array items) := by
  refine reads_header (by decide) (fun m hm => body_array hm) ?_ hh (hitems.map Value.array)
  intro p hp
  simp only [List.mem_cons, List.not_mem_nil, or_false] at hp
  rcases hp with rfl | rfl <;> exact ⟨by decide, rfl⟩

theorem reads_map {d : Nat} {fields : List (Key × Value)} {h b : List UInt8}
    (hh : mapHeader fields.length = some h)
    (hfields : Reads ((fieldOf (decode d)).many fields.length) b fields) :
    Reads (decode (d + 1)) (h ++ b) (.map fields) := by
  refine reads_header (by decide) (fun m hm => body_map hm) ?_ hh (hfields.map Value.map)
  intro p hp
  simp only [List.mem_cons, List.not_mem_nil, or_false] at hp
  rcases hp with rfl | rfl <;> exact ⟨by decide, rfl⟩

theorem reads_field {d : Nat} {k : Key} {v : Value} {a b : List UInt8}
    (hk : encodeKey k = some a) (hv : Reads (decode (d + 1)) b v) :
    Reads (fieldOf (decode (d + 1))) (a ++ b) (k, v) := by
  refine (reads_encodeKey d hk).bind ?_
  cases k with
  | str s => exact hv.map (fun v => (Key.str s, v))
  | bin x => exact hv.map (fun v => (Key.bin x, v))

theorem reads_many_cons {α : Type} {p : Parser α} {n : Nat} {a b : List UInt8} {x : α} {xs : List α}
    (hx : Reads p a x) (hxs : Reads (p.many n) b xs) : Reads (p.many (n + 1)) (a ++ b) (x :: xs) :=
  hx.bind (hxs.map (fun xs => x :: xs))

theorem depth_pos (v : Value) : 1 ≤ depth v := by
  cases v <;> simp [depth]

mutual

/-- What was encoded is read back. -/
theorem reads_encode : ∀ (v : Value) (d : Nat) (b : List UInt8), depth v ≤ d →
    encode v = some b → Reads (decode d) b v
  | v, 0, _, hd, _ => absurd (depth_pos v) (by omega)
  | .nil, d + 1, b, _, h => by
      cases h
      exact (reads_byte 0xc0).bind (y := []) (reads_pure _)
  | .bool false, d + 1, b, _, h => by
      cases h
      exact (reads_byte 0xc2).bind (y := []) (reads_pure _)
  | .bool true, d + 1, b, _, h => by
      cases h
      exact (reads_byte 0xc3).bind (y := []) (reads_pure _)
  | .int i, d + 1, b, _, h => reads_encodeInt d h
  | .float bits, d + 1, b, _, h => by
      cases h
      have hread := (reads_uint (w := 8) bits.toNat_lt).map (fun n => Value.float (UInt64.ofNat n))
      rw [UInt64.ofNat_toNat] at hread
      exact (reads_byte 0xcb).bind hread
  | .str s, d + 1, b, _, h => reads_encodeStr d h
  | .bin x, d + 1, b, _, h => reads_encodeBin d h
  | .ext code data, d + 1, b, _, h => reads_encodeExt d h
  | .array items, d + 1, b, hd, h => by
      simp only [encode] at h
      split at h
      · rename_i hh hb
        cases h
        simp only [depth] at hd
        exact reads_array hh (reads_items items d _ (by omega) hb)
      · cases h
  | .map fields, d + 1, b, hd, h => by
      simp only [encode] at h
      split at h
      · rename_i hh hb
        cases h
        simp only [depth] at hd
        exact reads_map hh (reads_fields fields d _ (by omega) hb)
      · cases h

theorem reads_items : ∀ (items : List Value) (d : Nat) (b : List UInt8), depthItems items ≤ d →
    encodeItems items = some b → Reads ((decode d).many items.length) b items
  | [], d, b, _, h => by
      cases h
      exact reads_pure []
  | v :: rest, d, b, hd, h => by
      simp only [encodeItems] at h
      split at h
      · rename_i ha hb
        cases h
        simp only [depthItems] at hd
        exact reads_many_cons (reads_encode v d _ (by omega) ha)
          (reads_items rest d _ (by omega) hb)
      · cases h

theorem reads_fields : ∀ (fields : List (Key × Value)) (d : Nat) (b : List UInt8),
    depthFields fields ≤ d → encodeFields fields = some b →
      Reads ((fieldOf (decode d)).many fields.length) b fields
  | [], d, b, _, h => by
      cases h
      exact reads_pure []
  | (k, v) :: rest, d, b, hd, h => by
      simp only [encodeFields] at h
      split at h
      · rename_i ha hb hc
        cases h
        simp only [depthFields] at hd
        obtain ⟨d, rfl⟩ : ∃ d', d = d' + 1 := ⟨d - 1, by have := depth_pos v; omega⟩
        rw [← List.append_assoc]
        exact reads_many_cons (reads_field ha (reads_encode v (d + 1) _ (by omega) hb))
          (reads_fields rest (d + 1) _ (by omega) hc)
      · cases h

end

/-- The nesting the encoder supports, less than the decoder. -/
def maxPackDepth : Nat := 512

/-- `packb`: one value as a whole message. -/
def packb (v : Value) : Option (List UInt8) := if depth v ≤ maxPackDepth then encode v else none

theorem packb_eq_some {v : Value} {b : List UInt8} (h : packb v = some b) :
    depth v ≤ maxPackDepth ∧ encode v = some b := by
  unfold packb at h
  split at h
  · rename_i hdepth
    exact ⟨hdepth, h⟩
  · cases h

/-- **What is packed is unpacked.** -/
theorem unpackb_packb {v : Value} {b : List UInt8} (h : packb v = some b) : unpackb b = some v := by
  obtain ⟨hdepth, hencode⟩ := packb_eq_some h
  have hread := reads_encode v maxDepth b (Nat.le_trans hdepth (by decide)) hencode []
  rw [List.append_nil] at hread
  rw [unpackb, hread]

/-! ## How long an encoding is, at least -/

def keySize : Key → Nat
  | .str s => 1 + (utf8 s).length
  | .bin b => 2 + b.length

mutual

/-- The bytes that are needed for a value at least. -/
def size : Value → Nat
  | .str s => 1 + (utf8 s).length
  | .bin b => 2 + b.length
  | .array items => 1 + sizeItems items
  | .map fields => 1 + sizeFields fields
  | _ => 1

def sizeItems : List Value → Nat
  | [] => 0
  | v :: rest => size v + sizeItems rest

def sizeFields : List (Key × Value) → Nat
  | [] => 0
  | (k, v) :: rest => keySize k + size v + sizeFields rest

end

theorem sizeItems_eq (items : List Value) : sizeItems items = (items.map size).sum := by
  induction items with
  | nil => rfl
  | cons v rest ih => simp [sizeItems, ih]

theorem sizeFields_eq (fields : List (Key × Value)) :
    sizeFields fields = (fields.map (fun f => keySize f.1 + size f.2)).sum := by
  induction fields with
  | nil => rfl
  | cons f rest ih => simp [sizeFields, ih]

theorem size_le_of_mem {fields : List (Key × Value)} {f : Key × Value} (h : f ∈ fields) :
    size f.2 ≤ size (.map fields) := by
  have hle := List.single_le_sum (by simp) _
    (List.mem_map_of_mem (f := fun f => keySize f.1 + size f.2) h)
  simp only [size, sizeFields_eq]
  omega

theorem utf8_of_fromUTF8? {b : List UInt8} {s : String}
    (h : String.fromUTF8? ⟨b.toArray⟩ = some s) : utf8 s = b := by
  unfold String.fromUTF8? at h
  split at h
  · cases h
    rfl
  · cases h

/-- What is needed for a value after its first byte. -/
def tailSize (v : Value) : Nat := size v - 1

theorem uses_strOf (n : Nat) : Uses (strOf n) tailSize := by
  refine (uses_takeN n).bind (fun b => ?_)
  split
  · rename_i s hs
    refine uses_pure ?_
    simp only [tailSize, size, utf8_of_fromUTF8? hs]
    omega
  · exact uses_fail _

theorem uses_floatOf (w : Nat) (f : Nat → UInt64) : Uses (floatOf w f) tailSize :=
  (uses_uint w).map (fun _ => Nat.zero_le _)

theorem uses_extOf (n : Nat) : Uses (extOf n) tailSize := by
  refine (uses_uint 1).bind (fun code => (uses_takeN n).bind (fun b => ?_))
  split
  · refine uses_pure ?_
    simp only [tailSize, size, Nat.sub_self, Nat.zero_sub]
  · exact uses_fail _

theorem uses_uintOf (w : Nat) : Uses (uintOf w) tailSize :=
  (uses_uint w).map (fun _ => Nat.zero_le _)

theorem uses_intOf (w : Nat) : Uses (intOf w) tailSize :=
  (uses_uint w).map (fun _ => Nat.zero_le _)

/-- A length before the parser of what it counts. -/
theorem uses_counted {f : Nat → Parser Value} (hf : ∀ n, Uses (f n) tailSize) (w : Nat) :
    Uses ((uint w).bind f) tailSize :=
  (uses_uint w).bind (fun n => (hf n).mono (fun _ => Nat.sub_le _ _))

/-- Byte strings always have a length before them. -/
theorem uses_binOf {w : Nat} (hw : 1 ≤ w) : Uses ((uint w).bind binOf) tailSize := by
  refine (uses_uint w).bind (fun n => (uses_takeN n).map (fun b => ?_))
  simp only [tailSize, size]
  omega

section Nested

variable {dec : Parser Value} (h : Uses dec size)

include h

theorem uses_arrayOf (n : Nat) : Uses (arrayOf dec n) tailSize := by
  refine (h.many n).map (fun items => ?_)
  simp only [tailSize, size, sizeItems_eq]
  omega

theorem uses_fieldOf : Uses (fieldOf dec) (fun f => keySize f.1 + size f.2) := by
  refine h.bind (fun k => ?_)
  split
  · refine h.map (fun v => ?_)
    simp only [keySize, size]
    omega
  · refine h.map (fun v => ?_)
    simp only [keySize, size]
    omega
  · exact uses_fail _

theorem uses_mapOf (n : Nat) : Uses (mapOf dec n) tailSize := by
  refine ((uses_fieldOf h).many n).map (fun fields => ?_)
  simp only [tailSize, size, sizeFields_eq]
  omega

theorem uses_tagged (t : Nat) : Uses (tagged dec t) tailSize := by
  unfold tagged
  split <;> first
    | exact uses_pure rfl
    | exact uses_fail _
    | exact uses_floatOf _ _
    | exact uses_extOf _
    | exact uses_uintOf _
    | exact uses_intOf _
    | exact uses_binOf (by decide)
    | exact uses_counted uses_extOf _
    | exact uses_counted uses_strOf _
    | exact uses_counted (uses_arrayOf h) _
    | exact uses_counted (uses_mapOf h) _

theorem uses_body (t : Nat) : Uses (body dec t) tailSize := by
  unfold body
  repeat' split
  · exact uses_pure rfl
  · exact uses_mapOf h _
  · exact uses_arrayOf h _
  · exact uses_strOf _
  · exact uses_tagged h _
  · exact uses_pure rfl

end Nested

theorem uses_decode (depth : Nat) : Uses (decode depth) size := by
  induction depth with
  | zero => exact uses_fail _
  | succ depth ih => exact uses_byte.bind (fun t => uses_body ih t.toNat)

/-- **An encoding is at least as long as what it says.** -/
theorem size_le_of_unpackb {x : List UInt8} {v : Value} (h : unpackb x = some v) :
    size v ≤ x.length :=
  uses_decode maxDepth x v [] (unpackb_eq_some h)

/-! ## What can be packed, and how long it is at most -/

def Key.fits : Key → Bool
  | .str s => (utf8 s).length < 2 ^ 32
  | .bin b => b.length < 2 ^ 32

mutual

/-- Numbers are in range and lengths have four bytes. -/
def fits : Value → Bool
  | .int i => -2 ^ 63 ≤ i && i < 2 ^ 64
  | .str s => (Key.str s).fits
  | .bin b => (Key.bin b).fits
  | .ext code data => extOk code data && (data.length < 2 ^ 32 : Bool)
  | .array items => (items.length < 2 ^ 32 : Bool) && fitsItems items
  | .map fields => (fields.length < 2 ^ 32 : Bool) && fitsFields fields
  | _ => true

def fitsItems : List Value → Bool
  | [] => true
  | v :: rest => fits v && fitsItems rest

def fitsFields : List (Key × Value) → Bool
  | [] => true
  | (k, v) :: rest => k.fits && fits v && fitsFields rest

end

/-- A number is in the first byte below `limit`, else in up to `k` more. -/
def headRoom (limit k n : Nat) : Nat := if n < limit then 1 else k + 1

def Key.room : Key → Nat
  | .str s => headRoom 32 4 (utf8 s).length + (utf8 s).length
  | .bin b => 5 + b.length

mutual

/-- The bytes that are enough for a value. -/
def room : Value → Nat
  | .str s => (Key.str s).room
  | .bin b => (Key.bin b).room
  | .ext _ data => 6 + data.length
  | .array items => headRoom 16 4 items.length + roomItems items
  | .map fields => headRoom 16 4 fields.length + roomFields fields
  | .int _ => 9
  | .float _ => 9
  | _ => 1

def roomItems : List Value → Nat
  | [] => 0
  | v :: rest => room v + roomItems rest

def roomFields : List (Key × Value) → Nat
  | [] => 0
  | (k, v) :: rest => k.room + room v + roomFields rest

end

theorem header_length (base limit : Nat) (wider : List (Nat × Nat)) {n k : Nat} {p : Nat × Nat}
    (hp : p ∈ wider) (hn : n < 256 ^ p.2) (hk : ∀ p ∈ wider, p.2 ≤ k) :
    ∃ h, header base limit wider n = some h ∧ h.length ≤ headRoom limit k n := by
  unfold header headRoom
  split
  · exact ⟨_, rfl, Nat.le_refl 1⟩
  · have hfind : (wider.find? (fun p => n < 256 ^ p.2)).isSome = true :=
      List.find?_isSome.mpr ⟨p, hp, by simpa using hn⟩
    obtain ⟨q, hq⟩ := Option.isSome_iff_exists.mp hfind
    have := hk q (List.mem_of_find?_eq_some hq)
    refine ⟨_, by rw [hq]; rfl, ?_⟩
    simp only [List.length_cons, BigEndian.length_pack]
    omega

theorem encodeKey_length {k : Key} (h : k.fits = true) :
    ∃ b, encodeKey k = some b ∧ b.length ≤ k.room := by
  cases k with
  | str s =>
    have hlength : (utf8 s).length < 256 ^ 4 := of_decide_eq_true h
    obtain ⟨head, hhead, hle⟩ := header_length 0xa0 32
      [(0xd9, 1), (0xda, 2), (0xdb, 4)] (k := 4) (p := (0xdb, 4)) (by simp) hlength (by simp)
    refine ⟨head ++ utf8 s, by rw [encodeKey, encodeStr, strHeader, hhead]; rfl, ?_⟩
    rw [List.length_append, Key.room]
    omega
  | bin x =>
    have hlength : x.length < 256 ^ 4 := of_decide_eq_true h
    obtain ⟨head, hhead, hle⟩ := header_length 0 0
      [(0xc4, 1), (0xc5, 2), (0xc6, 4)] (k := 4) (p := (0xc6, 4)) (by simp) hlength (by simp)
    refine ⟨head ++ x, by rw [encodeKey, encodeBin, binHeader, hhead]; rfl, ?_⟩
    rw [List.length_append, Key.room]
    simp only [headRoom, Nat.not_lt_zero, if_false] at hle
    omega

theorem encodeInt_length {i : Int} (h : fits (.int i) = true) :
    ∃ b, encodeInt i = some b ∧ b.length ≤ 9 := by
  simp only [fits, Bool.and_eq_true, decide_eq_true_eq] at h
  unfold encodeInt
  split
  · obtain ⟨b, hb, hle⟩ := header_length 0 0x80
      [(0xcc, 1), (0xcd, 2), (0xce, 4), (0xcf, 8)] (n := i.toNat) (k := 8) (p := (0xcf, 8)) (by simp)
      (show _ < 256 ^ 8 by omega) (by simp)
    exact ⟨b, hb, by unfold headRoom at hle; split at hle <;> omega⟩
  · split
    · exact ⟨_, rfl, by simp⟩
    · have hfind : ([(0xd0, 1), (0xd1, 2), (0xd2, 4), (0xd3, 8)].find?
          (fun p : Nat × Nat => -(256 : Int) ^ p.2 ≤ 2 * i)).isSome = true :=
        List.find?_isSome.mpr ⟨(0xd3, 8), by simp, by simp; omega⟩
      obtain ⟨q, hq⟩ := Option.isSome_iff_exists.mp hfind
      refine ⟨_, by rw [hq]; rfl, ?_⟩
      have hmem := List.mem_of_find?_eq_some hq
      simp only [List.mem_cons, List.not_mem_nil, or_false] at hmem
      simp only [List.length_cons, BigEndian.length_pack]
      rcases hmem with rfl | rfl | rfl | rfl <;> simp

theorem encodeExt_length {code : Nat} {data : List UInt8} (h : fits (.ext code data) = true) :
    ∃ b, encodeExt code data = some b ∧ b.length ≤ 6 + data.length := by
  simp only [fits, Bool.and_eq_true, decide_eq_true_eq] at h
  have hhead : ∃ head, extHeader data.length = some head ∧ head.length ≤ 5 := by
    unfold extHeader
    split
    · exact ⟨_, rfl, by simp⟩
    · obtain ⟨b, hb, hle⟩ := header_length 0 0
        [(0xc7, 1), (0xc8, 2), (0xc9, 4)] (k := 4) (p := (0xc9, 4)) (by simp)
        (show data.length < 256 ^ 4 by omega) (by simp)
      exact ⟨b, hb, by simpa [headRoom] using hle⟩
  obtain ⟨head, hhead, hle⟩ := hhead
  refine ⟨head ++ (UInt8.ofNat code :: data), by rw [encodeExt, if_pos h.1, hhead]; rfl, ?_⟩
  rw [List.length_append, List.length_cons]
  omega

mutual

/-- What fits the format is written, in the room it needs. -/
theorem encode_length : ∀ {v : Value}, fits v = true → ∃ b, encode v = some b ∧ b.length ≤ room v
  | .nil, _ => ⟨_, rfl, Nat.le_refl 1⟩
  | .bool false, _ => ⟨_, rfl, Nat.le_refl 1⟩
  | .bool true, _ => ⟨_, rfl, Nat.le_refl 1⟩
  | .int _, h => encodeInt_length h
  | .float bits, _ => ⟨_, rfl, by simp [room]⟩
  | .str s, h => encodeKey_length (k := .str s) h
  | .bin x, h => encodeKey_length (k := .bin x) h
  | .ext _ _, h => encodeExt_length h
  | .array items, h => by
      simp only [fits, Bool.and_eq_true, decide_eq_true_eq] at h
      obtain ⟨head, hhead, hle⟩ := header_length 0x90 16
        [(0xdc, 2), (0xdd, 4)] (k := 4) (p := (0xdd, 4)) (by simp)
        (show items.length < 256 ^ 4 by omega) (by simp)
      obtain ⟨b, hb, hlb⟩ := encodeItems_length h.2
      refine ⟨head ++ b, by simp only [encode, arrayHeader, hhead, hb], ?_⟩
      rw [List.length_append, room]
      omega
  | .map fields, h => by
      simp only [fits, Bool.and_eq_true, decide_eq_true_eq] at h
      obtain ⟨head, hhead, hle⟩ := header_length 0x80 16
        [(0xde, 2), (0xdf, 4)] (k := 4) (p := (0xdf, 4)) (by simp)
        (show fields.length < 256 ^ 4 by omega) (by simp)
      obtain ⟨b, hb, hlb⟩ := encodeFields_length h.2
      refine ⟨head ++ b, by simp only [encode, mapHeader, hhead, hb], ?_⟩
      rw [List.length_append, room]
      omega

theorem encodeItems_length : ∀ {items : List Value}, fitsItems items = true →
    ∃ b, encodeItems items = some b ∧ b.length ≤ roomItems items
  | [], _ => ⟨[], rfl, Nat.le_refl 0⟩
  | v :: rest, h => by
      simp only [fitsItems, Bool.and_eq_true] at h
      obtain ⟨a, ha, hla⟩ := encode_length h.1
      obtain ⟨b, hb, hlb⟩ := encodeItems_length h.2
      refine ⟨a ++ b, by simp only [encodeItems, ha, hb], ?_⟩
      rw [List.length_append, roomItems]
      omega

theorem encodeFields_length : ∀ {fields : List (Key × Value)}, fitsFields fields = true →
    ∃ b, encodeFields fields = some b ∧ b.length ≤ roomFields fields
  | [], _ => ⟨[], rfl, Nat.le_refl 0⟩
  | (k, v) :: rest, h => by
      simp only [fitsFields, Bool.and_eq_true] at h
      obtain ⟨a, ha, hla⟩ := encodeKey_length h.1.1
      obtain ⟨b, hb, hlb⟩ := encode_length h.1.2
      obtain ⟨c, hc, hlc⟩ := encodeFields_length h.2
      refine ⟨a ++ (b ++ c), by simp only [encodeFields, ha, hb, hc], ?_⟩
      rw [List.length_append, List.length_append, roomFields]
      omega

end

/-- **What fits the format can be packed**, in not much more than its strings. -/
theorem packb_length {v : Value} (hdepth : depth v ≤ maxPackDepth) (h : fits v = true) :
    ∃ b, packb v = some b ∧ b.length ≤ room v := by
  rw [packb, if_pos hdepth]
  exact encode_length h

end Lib.Msgpack
