/-
Memnode.Rpc.Wire — frames of the RPC server, in both codecs.

A frame is a length in four bytes and a body. Reading one checks the
length before the body is read, and then the body is decoded: by
`json.loads` or by `msgpack.unpackb`. What the decoders raise is a
`ValueError`, with one exception: JSON that is nested too deeply.

`Library` is what the server takes from the Python runtime: the two
codecs, with the texts of their errors, and how deeply an object may be
nested for `str` to make a text of it. An `Answer` is a response with
its fields in the forms `_dispatch` gives them. Most of them the server
makes itself, and such an answer can be written in the codec it was made
for (`frame_answer`); others it takes over from a peer or from the trust
store, and these may be anything.

  §1 streams and frames;
  §2 the library;
  §3 requests and answers;
  §4 answers that can be written.
-/
import Memnode.Config
import Memnode.Lib.Hex
import Memnode.Lib.JsonRoundTrip
import Memnode.Lib.Utf8
import Memnode.Value

namespace Memnode.Rpc

open Lib Lib.Json

/-! ## §1 Streams and frames -/

/-- What happens when the client has sent everything. -/
inductive Ending where
  /-- it closes its side -/
  | eof
  /-- the connection is lost -/
  | reset
  /-- it stays connected and says nothing -/
  | silent
  deriving DecidableEq

/-- What is still to be read. -/
structure Stream where
  bytes : Bytes
  ending : Ending
  deriving DecidableEq

/-- `reader.readexactly(n)`. -/
inductive Got where
  | got (b : Bytes) (rest : Stream)
  | incomplete
  | reset
  | waits

def readExactly (n : Nat) (s : Stream) : Got :=
  if n ≤ s.bytes.length then .got (s.bytes.take n) ⟨s.bytes.drop n, s.ending⟩
  else
    match s.ending with
    | .eof => .incomplete
    | .reset => .reset
    | .silent => .waits

/-- Why a body could not be decoded: a `ValueError` with its text, or
another exception. -/
inductive Unreadable where
  | value (message : Text)
  | other

/-- How a body is decoded, and the bytes of a frame that is written, if
it can be. -/
structure Wire where
  decode : Bytes → Except Unreadable Py
  frame : Py → Option Bytes

/-- What reading a frame comes to. -/
inductive Frame where
  | request (v : Py) (rest : Stream)
  | oversized (length : Nat)
  /-- a `ValueError` of the decoder -/
  | undecodable (message : Text)
  /-- another exception of the decoder -/
  | broken
  | incomplete
  | reset
  | waits

/-- The body of a frame. -/
def readBody (w : Wire) (length : Nat) (s : Stream) : Frame :=
  match readExactly length s with
  | .got raw rest =>
      match w.decode raw with
      | .ok v => .request v rest
      | .error (.value message) => .undecodable message
      | .error .other => .broken
  | .incomplete => .incomplete
  | .reset => .reset
  | .waits => .waits

/-- `_read_json_frame` and `_read_msgpack_frame`. The four bytes of the
length may have been read already. -/
def readFrame (w : Wire) (pending : Option Bytes) (s : Stream) : Frame :=
  match (match pending with
    | some prefixBytes => Got.got prefixBytes s
    | none => readExactly 4 s) with
  | .got prefixBytes rest =>
      let length := BigEndian.unpack prefixBytes
      if Config.maxRpcMessageSize < length then .oversized length else readBody w length rest
  | .incomplete => .incomplete
  | .reset => .reset
  | .waits => .waits

/-! ## §2 The library -/

inductive Codec where
  | json
  | msgpack
  deriving DecidableEq

/-- What the server takes from the Python runtime. -/
structure Library where
  floats : FloatFormat
  /-- the levels `json` has room for on the stack -/
  stack : Nat
  two_le_stack : 2 ≤ stack
  /-- `str(e)` for a body that is not UTF-8 or not JSON -/
  jsonMessage : Bytes → Text
  jsonMessage_short : ∀ raw, (jsonMessage raw).length ≤ 1000
  packer : Packer
  /-- `str(e)` for a body that is not MessagePack -/
  msgpackMessage : Bytes → String
  msgpackMessage_short : ∀ raw, (msgpackMessage raw).length ≤ 1000
  /-- the levels of an object that `_dispatch` can put into a text -/
  formatRoom : Nat
  /-- the levels of an object that can be put into a log line -/
  logRoom : Nat
  logRoom_le : logRoom ≤ formatRoom

/-- `struct.pack(">I", len(raw)) + raw`, if the length has four bytes. -/
def framed (raw : Bytes) : Option Bytes :=
  if raw.length < 2 ^ 32 then some (BigEndian.pack 4 raw.length ++ raw) else none

namespace Library

/-- `json.loads(raw.decode("utf-8"))`. -/
def loadsJson (L : Library) (raw : Bytes) : Except Unreadable Py :=
  match Utf8.decode raw with
  | none => .error (.value (L.jsonMessage raw))
  | some t =>
      match loads L.floats L.stack t with
      | .ok v => .ok v
      | .error .tooDeep => .error .other
      | .error _ => .error (.value (L.jsonMessage raw))

/-- `_write_json_frame`. -/
def frameJson (L : Library) (v : Py) : Option Bytes :=
  match dumps L.floats .default L.stack v with
  | .error _ => none
  | .ok t => framed (Utf8.encode t)

/-- `msgpack.unpackb(raw, raw=False)`. -/
def loadsMsgpack (L : Library) (raw : Bytes) : Except Unreadable Py :=
  match L.packer.unpackb raw with
  | some v => .ok (.ofMsgpack v)
  | none => .error (.value (Py.text (L.msgpackMessage raw)))

/-- `_write_msgpack_frame`. -/
def frameMsgpack (L : Library) (v : Py) : Option Bytes :=
  (v.toMsgpack.bind L.packer.packb).bind framed

/-- A codec, as the server reads and writes it. -/
def wire (L : Library) : Codec → Wire
  | .json => ⟨L.loadsJson, L.frameJson⟩
  | .msgpack => ⟨L.loadsMsgpack, L.frameMsgpack⟩

end Library

/-! ## §3 Requests and answers -/

/-- How a decoded value is read: as bytes, as a text of hex digits with
what `bytes.fromhex` makes of it, and as a condition. -/
structure Reading (V ε : Type) where
  bytes : V → Option Bytes
  fromHex : V → Option (Except ε Bytes)
  truthy : V → Bool

section Reading

variable {V ε : Type} (F : Reading V ε) (get : String → Option V)

/-- `request_payload(req)`; the error is the text of what it raises. -/
def Reading.requestPayload : Except ε (Option Bytes) :=
  match (get "data").bind F.bytes with
  | some data => .ok (some data)
  | none =>
      match (get "data_hex").bind F.fromHex with
      | some (.ok data) => .ok (some data)
      | some (.error e) => .error e
      | none => .ok none

/-- `req.get("allow_remote", True)`, as a condition. -/
def Reading.allowRemote : Bool := ((get "allow_remote").map F.truthy).getD true

/-- A payload that was read is in one of the two fields. -/
theorem Reading.requestPayload_cases {d : Bytes} (h : F.requestPayload get = .ok (some d)) :
    (∃ v, get "data" = some v ∧ F.bytes v = some d) ∨
      ∃ v, get "data_hex" = some v ∧ F.fromHex v = some (.ok d) := by
  unfold requestPayload at h
  split at h
  · rename_i data hdata
    cases h
    exact .inl (Option.bind_eq_some_iff.mp hdata)
  · split at h
    · rename_i data hdata
      cases h
      exact .inr (Option.bind_eq_some_iff.mp hdata)
    · cases h
    · cases h

end Reading

/-- The value of a field, as `_dispatch` makes it. -/
inductive Part where
  | none
  | bool (b : Bool)
  | int (i : Int)
  | text (t : Text)
  /-- a payload: bytes, or hex in a JSON session -/
  | data (d : Bytes)
  /-- what `stats()` returns -/
  | counts (fields : List (String × Int))
  /-- what a peer or the trust store supplied -/
  | foreign (v : Py)

/-- The fields of a response. -/
abbrev Answer := List (String × Part)

def Part.value (c : Codec) : Part → Py
  | .none => .none
  | .bool b => .bool b
  | .int i => .int i
  | .text t => .str t
  | .data d =>
      match c with
      | .json => .str (Py.text (toHex d))
      | .msgpack => .bytes d
  | .counts fields => .dict (fields.map (fun f => (.str (Py.text f.1), .int f.2)))
  | .foreign v => v

/-- The response as an object. -/
def Answer.value (c : Codec) (a : Answer) : Py :=
  .dict (a.map (fun f => (.str (Py.text f.1), f.2.value c)))

/-- `{"ok": False, "error": message}`. -/
def failed (message : Text) : Answer := [("ok", .bool false), ("error", .text message)]

/-- `_payload_response`. -/
def payloadResponse (d : Bytes) : Codec → Answer
  | .json => [("ok", .bool true), ("data_hex", .data d)]
  | .msgpack => [("ok", .bool true), ("data", .data d)]

/-- The text of the `ValueError` for a length over the limit. -/
def oversizedText (length : Nat) : String :=
  "RPC message of " ++ Nat.repr length ++ " bytes exceeds MAX_RPC_MESSAGE_SIZE"

/-- The server makes the value itself. -/
def Part.own : Part → Bool
  | .foreign _ => false
  | _ => true

def Answer.own (a : Answer) : Bool := a.all (fun f => f.2.own)

/-- The length of a text or a payload. -/
def Part.length : Part → Nat
  | .text t => t.length
  | .data d => d.length
  | _ => 0

/-- A number of 64 bits. -/
def IsShort (i : Int) : Prop := -2 ^ 63 ≤ i ∧ i < 2 ^ 63

/-- A value of the server's own: numbers are short, and a text for
MessagePack has no lone surrogates. -/
def Part.Speakable (c : Codec) : Part → Prop
  | .int i => IsShort i
  | .text t => c = .msgpack → ∃ s, Py.string t = some s
  | .counts fields => fields.length ≤ 8 ∧ ∀ f ∈ fields, f.1.length ≤ 32 ∧ IsShort f.2
  | .foreign _ => False
  | _ => True

/-- An answer of the server's own: a few fields with short names, and no
more text or payload than one block has. -/
structure Answer.Speakable (c : Codec) (a : Answer) : Prop where
  few : a.length ≤ 8
  length : (a.map (fun f => f.2.length)).sum ≤ Config.maxBlockSize
  fields : ∀ f ∈ a, f.1.length ≤ 32 ∧ f.2.Speakable c

/-! ## §4 What can be written -/

theorem length_text (s : String) : (Py.text s).length = s.length := by
  rw [Py.text, List.length_map, String.length_toList]

theorem length_unitText_le (u : Nat) : (unitText u).length ≤ 6 := by
  unfold unitText
  repeat
    split
    · simp
  simp [hexText]

theorem length_split_le (u : Nat) : (split u).length ≤ 2 := by
  unfold split
  split <;> simp

theorem length_flatMap_le {α β : Type} {f : α → List β} {n : Nat} (h : ∀ a, (f a).length ≤ n)
    (l : List α) : (l.flatMap f).length ≤ n * l.length := by
  induction l with
  | nil => simp
  | cons a l ih =>
    have ha := h a
    rw [List.flatMap_cons, List.length_append, List.length_cons, Nat.mul_succ]
    omega

theorem length_quote_le (s : Text) : (quote s).length ≤ 12 * s.length + 2 := by
  have hunits := length_flatMap_le length_split_le s
  have htext := length_flatMap_le length_unitText_le (s.flatMap split)
  simp only [quote, List.length_cons, List.length_append, List.length_nil]
  omega

theorem toHex_verbatim (data : Bytes) : ∀ c ∈ (toHex data).toList, isVerbatim c = true := by
  intro c hc
  obtain ⟨k, hk, rfl⟩ := mem_toHex hc
  have hall : ∀ k < 16, isVerbatim (Nat.digitChar k) = true := by decide
  exact hall k hk

/-- The digits of a short number. -/
theorem length_digits {i : Int} (h : IsShort i) : (Nat.toDigits 10 i.natAbs).length ≤ 19 :=
  (Nat.length_toDigits_le_iff (by decide) (by decide)).mpr (by
    have hbounds := h
    unfold IsShort at hbounds
    omega)

section Json

variable {L : Library} {level : Nat}

theorem encode_short {i : Int} (h : IsShort i) :
    ∃ t, encode L.floats .default L.stack level (.int i) = .ok t ∧ t.length ≤ 20 := by
  have hdigits := length_digits h
  refine ⟨intText i, ?_, ?_⟩
  · rw [encode, if_neg (by unfold maxDigits; omega)]
  · unfold intText
    split <;> simp only [List.length_append, List.length_cons, List.length_nil] <;> omega

/-- A dictionary whose values can be written, with the texts of its
fields. The induction is along the fields. -/
theorem encodeFields_texts {α : Type} {name : α → String} {value : α → Py} {room : α → Nat}
    {fields : List α} (h : ∀ f ∈ fields, (name f).length ≤ 32 ∧
      ∃ t, encode L.floats .default L.stack level (value f) = .ok t ∧ t.length ≤ room f) :
    ∃ ts, encodeFields L.floats .default L.stack level
        (fields.map (fun f => (.str (Py.text (name f)), value f))) = .ok ts ∧
      ts.length = fields.length ∧
      (ts.map List.length).sum ≤ 400 * fields.length + (fields.map room).sum := by
  induction fields with
  | nil => exact ⟨[], rfl, rfl, by simp⟩
  | cons f rest ih =>
    obtain ⟨hname, t, ht, hlength⟩ := h f (List.mem_cons_self ..)
    obtain ⟨ts, hts, hcount, hsum⟩ := ih (fun g hg => h g (List.mem_cons_of_mem _ hg))
    refine ⟨_, encodeFields_cons.mpr ⟨_, t, ts, rfl, ht, hts, rfl⟩, by simp [hcount], ?_⟩
    have hquote := length_quote_le (Py.text (name f))
    rw [length_text] at hquote
    simp only [List.map_cons, List.sum_cons, List.length_cons, fieldText, Style.default,
      List.length_append, List.length_nil]
    omega

theorem length_partsText_le (level : Nat) (close : Char) (ts : List (List Char)) :
    (partsText .default level close ts).length ≤ 2 * ts.length + (ts.map List.length).sum + 1 := by
  have hrest : ∀ ts : List (List Char),
      (ts.flatMap (fun t => ',' :: (Style.default.comma level ++ t))).length
        = 2 * ts.length + (ts.map List.length).sum := by
    intro ts
    induction ts with
    | nil => rfl
    | cons t ts ih =>
      rw [List.flatMap_cons, List.length_append, ih]
      simp only [Style.default, List.length_cons, List.length_append, List.length_nil,
        List.map_cons, List.sum_cons]
      omega
  cases ts with
  | nil => simp [partsText]
  | cons t ts =>
    rw [partsText, List.length_append, List.length_append, List.length_append, hrest]
    simp only [Style.default, List.length_append, List.length_cons, List.length_nil, List.map_cons,
      List.sum_cons]
    omega

/-- A dictionary is as long as its fields, and a little more. -/
theorem encode_fields {α : Type} (name : α → String) (value : α → Py) (room : α → Nat)
    {fields : List α} (hlevel : level < L.stack) (h : ∀ f ∈ fields, (name f).length ≤ 32 ∧
      ∃ t, encode L.floats .default L.stack (level + 1) (value f) = .ok t ∧ t.length ≤ room f) :
    ∃ t, encode L.floats .default L.stack level
        (.dict (fields.map (fun f => (.str (Py.text (name f)), value f)))) = .ok t ∧
      t.length ≤ 402 * fields.length + (fields.map room).sum + 2 := by
  obtain ⟨ts, hts, hcount, hsum⟩ := encodeFields_texts h
  refine ⟨_, encode_dict.mpr ⟨hlevel, ts, hts, rfl⟩, ?_⟩
  have hparts := length_partsText_le level '\x7d' ts
  rw [List.length_cons]
  omega

theorem sum_map_const {α : Type} (l : List α) (n : Nat) :
    (l.map (fun _ => n)).sum = n * l.length := by
  simp [Nat.mul_comm]

/-- A value of the server's own has a text, inside another object. -/
theorem encode_part {p : Part} (h : p.Speakable .json) :
    ∃ t, encode L.floats .default L.stack 1 (p.value .json) = .ok t ∧
      t.length ≤ 12 * p.length + 5000 := by
  cases p with
  | none => exact ⟨_, rfl, by simp⟩
  | bool b => cases b <;> exact ⟨_, rfl, by simp⟩
  | int i =>
    exact (encode_short h).imp fun t ht => ⟨ht.1, Nat.le_trans ht.2 (by omega)⟩
  | text t =>
    have hquote := length_quote_le t
    refine ⟨quote t, rfl, ?_⟩
    simp only [Part.length]
    omega
  | data d =>
    refine ⟨quote (Py.text (toHex d)), rfl, ?_⟩
    rw [quote_verbatim (toHex_verbatim d)]
    have hlength := length_toHex d
    simp only [Part.length, List.length_cons, List.length_append, List.length_nil]
    omega
  | counts fields =>
    obtain ⟨hfew, hfields⟩ := h
    obtain ⟨t, ht, hlength⟩ := encode_fields Prod.fst (fun f : String × Int => .int f.2) (fun _ => 20)
      (show 1 < L.stack from L.two_le_stack)
      (fun f hf => ⟨(hfields f hf).1, encode_short (hfields f hf).2⟩)
    rw [sum_map_const] at hlength
    exact ⟨t, ht, by omega⟩
  | foreign v => exact h.elim

end Json

theorem sum_map_add_const {α : Type} (f : α → Nat) (k n : Nat) (l : List α) :
    (l.map (fun a => k * f a + n)).sum = k * (l.map f).sum + n * l.length := by
  induction l with
  | nil => simp
  | cons a l ih =>
    simp only [List.map_cons, List.sum_cons, List.length_cons, ih, Nat.mul_add, Nat.mul_one]
    omega

theorem frameJson_answer (L : Library) {a : Answer} (h : a.Speakable .json) :
    ∃ b, L.frameJson (a.value .json) = some b := by
  have hlevel : 0 < L.stack := Nat.lt_of_lt_of_le Nat.two_pos L.two_le_stack
  obtain ⟨t, ht, hlength⟩ := encode_fields Prod.fst
    (fun f : String × Part => f.2.value .json) (fun f => 12 * f.2.length + 5000)
    hlevel (fun f hf => ⟨(h.fields f hf).1, encode_part (h.fields f hf).2⟩)
  have hdumps : dumps L.floats .default L.stack (a.value .json) = .ok t := ht
  rw [sum_map_add_const (fun f : String × Part => f.2.length)] at hlength
  have hfew := h.few
  have hsum := h.length
  have hmax : Config.maxBlockSize = 2 ^ 26 := rfl
  have hbytes := Utf8.length_encode_le t
  have hfit : (Utf8.encode t).length < 2 ^ 32 := by omega
  exact ⟨_, by simp only [Library.frameJson, hdumps]; exact if_pos hfit⟩

/-! MessagePack -/

theorem length_utf8_le (s : String) : (Msgpack.utf8 s).length ≤ 4 * s.length := by
  have hle := Utf8.length_encode_le s.toList
  rw [Utf8.encode, String.ofList_toList] at hle
  exact hle

theorem length_of_string {t : Text} {s : String} (h : Py.string t = some s) :
    s.length = t.length := by
  unfold Py.string at h
  split at h
  · cases h
    rw [String.length_ofList, List.length_map]
  · cases h

/-- The value can be packed, in this many levels and bytes. -/
structure Packs (v : Msgpack.Value) (depth room : Nat) : Prop where
  fits : Msgpack.fits v = true
  depth : Msgpack.depth v ≤ depth
  room : Msgpack.room v ≤ room

theorem headRoom_le (limit k n : Nat) : Msgpack.headRoom limit k n ≤ k + 1 := by
  unfold Msgpack.headRoom
  split <;> omega

theorem packs_str {s : String} (hs : s.length ≤ Config.maxBlockSize) :
    (Msgpack.Key.str s).fits = true ∧ (Msgpack.Key.str s).room ≤ 5 + 4 * s.length := by
  have hmax : Config.maxBlockSize = 2 ^ 26 := rfl
  have hutf8 := length_utf8_le s
  have hhead := headRoom_le 32 4 (Msgpack.utf8 s).length
  refine ⟨decide_eq_true (by omega), ?_⟩
  simp only [Msgpack.Key.room]
  omega

/-- A dictionary whose values can be packed. The induction is along the
fields. -/
theorem packs_fields {α : Type} (name : α → String) (value : α → Py) (room : α → Nat) (depth : Nat)
    {fields : List α} (hfew : fields.length ≤ 8)
    (h : ∀ f ∈ fields, (name f).length ≤ 32 ∧
      ∃ v, (value f).toMsgpack = some v ∧ Packs v depth (room f)) :
    ∃ v, (Py.dict (fields.map (fun f => (.str (Py.text (name f)), value f)))).toMsgpack = some v ∧
      Packs v (depth + 1) (5 + (133 * fields.length + (fields.map room).sum)) := by
  have hfields : ∃ vs, Py.toFields (fields.map (fun f => (.str (Py.text (name f)), value f)))
        = some vs ∧ vs.length = fields.length ∧ Msgpack.fitsFields vs = true ∧
      Msgpack.depthFields vs ≤ depth ∧
      Msgpack.roomFields vs ≤ 133 * fields.length + (fields.map room).sum := by
    clear hfew
    induction fields with
    | nil => exact ⟨[], rfl, rfl, rfl, Nat.zero_le _, Nat.zero_le _⟩
    | cons f rest ih =>
      obtain ⟨hname, v, hv, hpacks⟩ := h f (List.mem_cons_self ..)
      obtain ⟨vs, hvs, hcount, hfits, hdepth, hroom⟩ :=
        ih (fun g hg => h g (List.mem_cons_of_mem _ hg))
      have hmax : Config.maxBlockSize = 2 ^ 26 := rfl
      obtain ⟨hkey, hkeyRoom⟩ := packs_str (s := name f) (by omega)
      refine ⟨(.str (name f), v) :: vs, ?_, by simp [hcount], ?_, ?_, ?_⟩
      · simp only [List.map_cons, Py.toFields, Py.Key.toMsgpack, Py.string_text, Option.map_some,
          hv, hvs]
      · simp only [Msgpack.fitsFields, hkey, hpacks.fits, hfits, Bool.and_self]
      · exact Nat.max_le.mpr ⟨hpacks.depth, hdepth⟩
      · have hv := hpacks.room
        simp only [Msgpack.roomFields, List.length_cons, List.map_cons, List.sum_cons]
        omega
  obtain ⟨vs, hvs, hcount, hfits, hdepth, hroom⟩ := hfields
  refine ⟨.map vs, by rw [Py.toMsgpack, hvs]; rfl, ?_, ?_, ?_⟩
  · simp only [Msgpack.fits, hfits, Bool.and_true]
    exact decide_eq_true (by omega)
  · exact Nat.succ_le_succ hdepth
  · have hhead := headRoom_le 16 4 vs.length
    simp only [Msgpack.room]
    omega

theorem packs_int {i : Int} (h : IsShort i) : Packs (.int i) 1 9 := by
  refine ⟨?_, Nat.le_refl 1, Nat.le_refl 9⟩
  obtain ⟨hlow, hhigh⟩ := h
  simp only [Msgpack.fits, Bool.and_eq_true, decide_eq_true_eq]
  exact ⟨hlow, by omega⟩

/-- A value of the server's own can be packed. -/
theorem packs_part {p : Part} (h : p.Speakable .msgpack) (hlength : p.length ≤ Config.maxBlockSize) :
    ∃ v, (p.value .msgpack).toMsgpack = some v ∧ Packs v 2 (4 * p.length + 2000) := by
  have hmax : Config.maxBlockSize = 2 ^ 26 := rfl
  cases p with
  | none => exact ⟨.nil, rfl, rfl, Nat.le_succ 1, Nat.le_add_left 1 1999⟩
  | bool b => exact ⟨.bool b, rfl, rfl, Nat.le_succ 1, Nat.le_add_left 1 1999⟩
  | int i => exact ⟨.int i, rfl, (packs_int h).fits, Nat.le_succ 1, Nat.le_add_left 9 1991⟩
  | text t =>
    obtain ⟨s, hs⟩ := h rfl
    have hchars := length_of_string hs
    simp only [Part.length] at hlength ⊢
    obtain ⟨hfits, hroom⟩ := packs_str (s := s) (by omega)
    refine ⟨.str s, by simp only [Part.value, Py.toMsgpack, hs, Option.map_some], hfits,
      Nat.le_succ 1, ?_⟩
    rw [Msgpack.room]
    omega
  | data d =>
    simp only [Part.length] at hlength ⊢
    refine ⟨.bin d, rfl, decide_eq_true (by omega), Nat.le_succ 1, ?_⟩
    simp only [Msgpack.room, Msgpack.Key.room]
    omega
  | counts fields =>
    obtain ⟨hfew, hfields⟩ := h
    obtain ⟨v, hv, hpacks⟩ := packs_fields Prod.fst
      (fun f : String × Int => .int f.2) (fun _ => 9) 1 hfew
      (fun f hf => ⟨(hfields f hf).1, _, rfl, packs_int (hfields f hf).2⟩)
    have hroom := hpacks.room
    rw [sum_map_const] at hroom
    exact ⟨v, hv, hpacks.fits, hpacks.depth, by omega⟩
  | foreign v => exact h.elim

theorem frameMsgpack_answer (L : Library) {a : Answer} (h : a.Speakable .msgpack) :
    ∃ b, L.frameMsgpack (a.value .msgpack) = some b := by
  have hpart : ∀ f ∈ a, f.2.length ≤ Config.maxBlockSize := fun f hf =>
    Nat.le_trans (List.single_le_sum (by simp) _ (List.mem_map_of_mem (f := fun f => f.2.length) hf))
      h.length
  obtain ⟨v, hv, hpacks⟩ := packs_fields Prod.fst
    (fun f : String × Part => f.2.value .msgpack) (fun f => 4 * f.2.length + 2000) 2 h.few
    (fun f hf => ⟨(h.fields f hf).1, packs_part (h.fields f hf).2 (hpart f hf)⟩)
  obtain ⟨b, hb, hlength⟩ := L.packer.packs (Nat.le_trans hpacks.depth (by decide)) hpacks.fits
  have hroom := hpacks.room
  rw [sum_map_add_const (fun f : String × Part => f.2.length)] at hroom
  have hfew := h.few
  have hsum := h.length
  have hmax : Config.maxBlockSize = 2 ^ 26 := rfl
  have hfit : b.length < 2 ^ 32 := by omega
  have hvalue : (a.value .msgpack).toMsgpack = some v := hv
  exact ⟨_, by rw [Library.frameMsgpack, hvalue, Option.bind_some, hb, Option.bind_some]; exact if_pos hfit⟩

/-- What the server says itself can be written. -/
theorem frame_answer (L : Library) {c : Codec} {a : Answer} (h : a.Speakable c) :
    ∃ b, (L.wire c).frame (a.value c) = some b := by
  cases c with
  | json => exact frameJson_answer L h
  | msgpack => exact frameMsgpack_answer L h

theorem speakable_failed {c : Codec} {message : Text} (hlength : message.length ≤ Config.maxBlockSize)
    (hstring : c = .msgpack → ∃ s, Py.string message = some s) : (failed message).Speakable c where
  few := by simp [failed]
  length := by simpa [failed, Part.length] using hlength
  fields := by
    intro f hf
    simp only [failed, List.mem_cons, List.not_mem_nil, or_false] at hf
    rcases hf with rfl | rfl
    · exact ⟨by decide, trivial⟩
    · exact ⟨show "error".length ≤ 32 by decide, hstring⟩

/-- A report with a short text. -/
theorem speakable_report (c : Codec) {s : String} (h : s.length ≤ 1000) :
    (failed (Py.text s)).Speakable c := by
  have hmax : Config.maxBlockSize = 2 ^ 26 := rfl
  refine speakable_failed ?_ (fun _ => ⟨s, Py.string_text s⟩)
  rw [length_text]
  omega

theorem length_oversizedText {length : Nat} (h : length < 2 ^ 32) :
    (oversizedText length).length ≤ 1000 := by
  have hdigits : (Nat.toDigits 10 length).length ≤ 10 :=
    (Nat.length_toDigits_le_iff (by decide) (by decide)).mpr (by omega)
  have hhead : "RPC message of ".length = 15 := by decide
  have htail : " bytes exceeds MAX_RPC_MESSAGE_SIZE".length = 35 := by decide
  have htext : oversizedText length
      = "RPC message of " ++ Nat.repr length ++ " bytes exceeds MAX_RPC_MESSAGE_SIZE" := rfl
  rw [htext, String.length_append, String.length_append, hhead, htail, Nat.repr,
    String.length_ofList]
  omega

theorem frame_oversized (L : Library) (c : Codec) {length : Nat} (h : length < 2 ^ 32) :
    ∃ b, (L.wire c).frame ((failed (Py.text (oversizedText length))).value c) = some b :=
  frame_answer L (speakable_report c (length_oversizedText h))

/-- What a decoder raises can be reported. -/
theorem frame_undecodable (L : Library) (c : Codec) {raw : Bytes} {message : Text}
    (h : (L.wire c).decode raw = .error (.value message)) :
    ∃ b, (L.wire c).frame ((failed message).value c) = some b := by
  cases c with
  | json =>
    have hmessage : message = L.jsonMessage raw := by
      simp only [Library.wire, Library.loadsJson] at h
      split at h
      · cases h
        rfl
      · split at h
        · cases h
        · cases h
        · cases h
          rfl
    have hshort := L.jsonMessage_short raw
    have hmax : Config.maxBlockSize = 2 ^ 26 := rfl
    rw [hmessage]
    exact frame_answer L (speakable_failed (by omega) (fun h => by cases h))
  | msgpack =>
    simp only [Library.wire, Library.loadsMsgpack] at h
    split at h
    · cases h
    · cases h
      exact frame_answer L (speakable_report .msgpack (L.msgpackMessage_short raw))

/-- A runtime with short error texts and room for four levels. -/
def plainLibrary : Library where
  floats := .spelled
  stack := 4
  two_le_stack := by decide
  jsonMessage := fun _ => []
  jsonMessage_short := fun _ => Nat.zero_le 1000
  packer := .msgpack
  msgpackMessage := fun _ => ""
  msgpackMessage_short := fun _ => Nat.zero_le 1000
  formatRoom := 4
  logRoom := 3
  logRoom_le := by decide

end Memnode.Rpc
