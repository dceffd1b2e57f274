/-
Memnode.Rpc.Codecs — one store behind two codecs.

A client stores a block in one codec and loads it in the same codec or
in the other. The limit on frames is checked where a frame is read, by
the server for the request and by the CLI for the reply, and a JSON
frame carries two characters for each byte of the payload. So what
arrived as MessagePack may be too long to leave as JSON, and
`codecs_share_store` says that nothing else goes wrong.

  §1 hex digits in a text;
  §2 the operations `store` and `load` on decoded requests;
  §3 a request is at least as long as what it stores;
  §4 replies, as the CLI reads them;
  §5 the two together.
-/
import Memnode.Rpc.FailedStore
import Memnode.Rpc.Session

namespace Memnode.Rpc

open Lib Lib.Json Blocks Replication

/-! ## §1 Hex digits in a text -/

/-- `bytes.fromhex(t)`, which takes ASCII texts only. -/
def fromHexText (t : Text) : Option Bytes := (Py.string t).bind (fun s => fromHex s.toList)

theorem fromHexText_text (s : String) : fromHexText (Py.text s) = fromHex s.toList := by
  rw [fromHexText, Py.string_text, Option.bind_some]

theorem length_of_fromHexText {t : Text} {data : Bytes} (h : fromHexText t = some data) :
    2 * data.length ≤ t.length := by
  obtain ⟨s, hs, hdata⟩ := Option.bind_eq_some_iff.mp h
  have hle := length_of_fromHex s.toList hdata
  unfold Py.string at hs
  split at hs
  · cases hs
    rwa [String.toList_ofList, List.length_map] at hle
  · cases hs

/-! ## §2 Store and load -/

/-- What became of a store that found no room here. -/
inductive Spill where
  | there (peer : Text) (block : Py)
  | refused (error : Text)
  | raised (error : Text)

/-- What the operations need besides the block manager: the interpreter,
and what `_dispatch` does with the network and in its other branches. -/
structure Host {κ : Type} (cfg : Settings (KeyObject κ)) where
  /-- the key, or the text of what `hash(key)` raises -/
  key : Py → KeyObject κ
  /-- `str(e)`, where `bytes.fromhex` raises -/
  hexError : Text → Text
  /-- `str(e)`, where `Durability(v)` raises -/
  durabilityError : Py → Text
  /-- `str(e)`, where a block id has no stripe -/
  stripeError : Py → Text
  /-- a store that found no room here, with a peer that has some or without -/
  overflow : Bytes → Durability → Py → StoreError → Spill
  /-- `load_remote_by_key_anywhere(key)` -/
  elsewhere : Py → Option Bytes
  /-- the other operations -/
  other : BlockManager cfg → Object → Codec → BlockManager cfg × Except Text Answer
  /-- `compute_response(token, challenge)` -/
  computeResponse : Text → Text

/-- `Durability(v)`, `none` where it raises. -/
def durabilityOfPy : Py → Option Durability
  | .str s =>
      if s = Py.text "pinned" then some .pinned
      else if s = Py.text "cache" then some .cache
      else none
  | _ => none

/-- An index, as Python takes it. -/
def indexOfPy : Py → Option Int
  | .int i => some i
  | .bool b => some (if b then 1 else 0)
  | _ => none

/-- The answer to a store that was done elsewhere, or not at all. -/
def Spill.response : Spill → Except Text Answer
  | .there peer block =>
      .ok [("ok", .bool true), ("block_id", .foreign block),
        ("location", .text (Py.text "remote")), ("peer", .text peer)]
  | .refused error => .ok (failed error)
  | .raised error => .error error

namespace Host

variable {κ : Type} {cfg : Settings (KeyObject κ)} (H : Host cfg)

/-- How the values of a request are read. -/
def reading : Reading Py Text where
  bytes := fun v =>
    match v with
    | .bytes data => some data
    | _ => none
  fromHex := fun v =>
    match v with
    | .str t =>
        some (match fromHexText t with
          | some data => .ok data
          | none => .error (H.hexError t))
    | _ => none
  truthy := Py.truthy

/-- `request_payload(req)`; the error is the text of what it raises. -/
def requestPayload (req : Object) : Except Text (Option Bytes) :=
  H.reading.requestPayload (Py.get req)

/-- `req.get("allow_remote", True)`, as a condition. -/
def allowRemote (req : Object) : Bool := H.reading.allowRemote (Py.get req)

/-- A payload that was read is in one of the two fields. -/
theorem requestPayload_cases {req : Object} {d : Bytes} (h : H.requestPayload req = .ok (some d)) :
    Py.get req "data" = some (.bytes d) ∨
      ∃ t, Py.get req "data_hex" = some (.str t) ∧ fromHexText t = some d := by
  rcases H.reading.requestPayload_cases _ h with ⟨v, hget, hv⟩ | ⟨v, hget, hv⟩
  · cases v with
    | bytes data =>
      cases hv
      exact Or.inl hget
    | _ => cases hv
  · cases v with
    | str t =>
      refine Or.inr ⟨t, hget, ?_⟩
      have hpayload := Option.some.inj hv
      split at hpayload
      · rename_i data hdata
        cases hpayload
        exact hdata
      · cases hpayload
    | _ => cases hv

/-- The key argument of `store`. -/
def keyArgument : Py → Option (KeyObject κ)
  | .none => none
  | v => some (H.key v)

variable [DecidableEq κ]

/-- `op == "store"`. -/
def store (m : BlockManager cfg) (sh : Shuffles cfg.stripeCount) (req : Object) :
    BlockManager cfg × Except Text Answer :=
  match H.requestPayload req with
  | .error text => (m, .error text)
  | .ok none => (m, .ok (failed (Py.text "store requires 'data' (bytes) or 'data_hex' (hex)")))
  | .ok (some data) =>
      let durability := (Py.get req "durability").getD (.str (Py.text "pinned"))
      match durabilityOfPy durability with
      | none => (m, .error (H.durabilityError durability))
      | some d =>
          let key := (Py.get req "key").getD .none
          match AnyKey.store m sh ⟨data, d, H.keyArgument key⟩ with
          | (m', .ok b) => (m', .ok (storedHere b))
          | (m', .error (.unhashable text)) => (m', .error (Py.text text))
          | (m', .error (.refused (.blockTooLarge size))) =>
              (m', .ok (failed (Py.text (StoreError.blockTooLarge size).message)))
          | (m', .error (.refused e)) =>
              (m', if H.allowRemote req then (H.overflow data d key e).response
                else .ok (failed (Py.text e.message)))

/-- What `op == "load"` finds, or the text of what it raises. -/
def find (m : BlockManager cfg) (req : Object) : Except Text (Option Bytes) :=
  match Py.get req "block_id" with
  | some v =>
      match indexOfPy v with
      | some b => .ok (m.load b)
      | none => .error (H.stripeError v)
  | none =>
      match Py.get req "key" with
      | none => .error (Py.text "'key'")
      | some key =>
          match H.key key with
          | .inr text => .error (Py.text text)
          | .inl k =>
              match m.loadByKey (.inl k) with
              | some data => .ok (some data)
              | none => .ok (if H.allowRemote req then H.elsewhere key else none)

/-- `op == "load"`. -/
def load (m : BlockManager cfg) (req : Object) (c : Codec) : Except Text Answer :=
  match H.find m req with
  | .error text => .error text
  | .ok found => .ok (foundResponse c found)

/-- `_dispatch`, with the random choices of an eviction. -/
def dispatch (sh : Shuffles cfg.stripeCount) (m : BlockManager cfg) (req : Object) (c : Codec) :
    BlockManager cfg × Except Text Answer :=
  match Py.get req "op" with
  | some (.str op) =>
      if op = Py.text "store" then H.store m sh req
      else if op = Py.text "load" then (m, H.load m req c)
      else H.other m req c
  | _ => H.other m req c

/-- The server of a node. -/
def server (sh : Shuffles cfg.stripeCount) : Server (BlockManager cfg) where
  handle := H.dispatch sh
  computeResponse := H.computeResponse

/-- A store that answers with an id of its own has put the payload there. -/
theorem store_spec {m m' : BlockManager cfg} {sh : Shuffles cfg.stripeCount} {req : Object}
    {d : Bytes} {b : BlockId} {c : Codec} {answer : Answer}
    (hd : H.requestPayload req = .ok (some d)) (h : H.store m sh req = (m', .ok answer))
    (hanswer : answer.value c = (storedHere b).value c) :
    ∃ r : StoreReq (KeyObject κ), r.data = d ∧ AnyKey.store m sh r = (m', .ok b) := by
  have hfailed : ∀ text, (failed text).value c ≠ (storedHere b).value c := by
    simp [Answer.value, failed, storedHere, Part.value]
  unfold store at h
  rw [hd] at h
  simp only at h
  split at h
  · simp at h
  · rename_i durability hdurability
    refine ⟨⟨d, durability, H.keyArgument ((Py.get req "key").getD .none)⟩, rfl, ?_⟩
    split at h
    · rename_i m₁ b' hstore
      obtain ⟨rfl, hresponse⟩ := Prod.mk.inj h
      cases hresponse
      have hb : b' = b := by simpa [Answer.value, storedHere, Part.value] using hanswer
      rw [hstore, hb]
    · simp at h
    · obtain ⟨-, hresponse⟩ := Prod.mk.inj h
      cases hresponse
      exact absurd hanswer (hfailed _)
    · -- the answer to an overflow names another place
      obtain ⟨-, hresponse⟩ := Prod.mk.inj h
      split at hresponse
      · unfold Spill.response at hresponse
        split at hresponse
        · cases hresponse
          have hplace : Py.text "remote" ≠ Py.text "local" := by decide
          simp [Answer.value, storedHere, Part.value] at hanswer
        · cases hresponse
          exact absurd hanswer (hfailed _)
        · cases hresponse
      · cases hresponse
        exact absurd hanswer (hfailed _)

/-- The request asks for block `b`, by its id or by a key that is bound to it. -/
def Asks (m : BlockManager cfg) (req : Object) (b : BlockId) : Prop :=
  Py.get req "op" = some (.str (Py.text "load")) ∧
    ((∃ v, Py.get req "block_id" = some v ∧ indexOfPy v = some b) ∨
      (Py.get req "block_id" = none ∧ ∃ v k, Py.get req "key" = some v ∧ H.key v = .inl k ∧
        m.bound (.inl k) = some b))

theorem find_of_asks {m : BlockManager cfg} {req : Object} {b : BlockId} {d : Bytes}
    (h : H.Asks m req b) (hb : m.load b = some d) : H.find m req = .ok (some d) := by
  obtain ⟨-, ⟨v, hv, hindex⟩ | ⟨hno, v, k, hv, hk, hbound⟩⟩ := h
  · simp only [find, hv, hindex, hb]
  · have hload : m.loadByKey (.inl k) = some d := by
      rw [BlockManager.loadByKey, hbound]
      exact hb
    simp only [find, hno, hv, hk, hload]

variable (L : Library)

/-- The answer to a load of a block that is there. -/
theorem respond_load {m : BlockManager cfg} {req : Object} {b : BlockId} {d : Bytes}
    (sh : Shuffles cfg.stripeCount) (c : Codec) (h : H.Asks m req b) (hb : m.load b = some d) :
    respond L (H.server sh) c m req = (m, some ((payloadResponse d c).value c)) := by
  have hne : Py.text "load" ≠ Py.text "store" := by decide
  have hop : ¬L.formatRoom < (opOf req).nesting := by simp [opOf, h.1, Py.nesting]
  have hhandle : (H.server sh).handle m req c = (m, .ok (payloadResponse d c)) := by
    simp only [server, dispatch, h.1, if_neg hne, if_pos, load, H.find_of_asks h hb, foundResponse]
  simp only [respond, Rpc.dispatch, if_neg hop, hhandle]

/-- The body of a request that was read in codec `c` stored `d` here, as block `b`. -/
def StoredThrough (c : Codec) (raw : Bytes) (m m' : BlockManager cfg) (d : Bytes) (b : BlockId) :
    Prop :=
  raw.length ≤ Config.maxRpcMessageSize ∧
    ∃ req sh, (L.wire c).decode raw = .ok (.dict req) ∧
      Py.get req "op" = some (.str (Py.text "store")) ∧ H.requestPayload req = .ok (some d) ∧
      respond L (H.server sh) c m req = (m', some ((storedHere b).value c))

variable {H L} {c : Codec} {raw : Bytes}

/-- The block is there when the store is answered. -/
theorem StoredThrough.block {m m' : BlockManager cfg} {d : Bytes} {b : BlockId}
    (h : H.StoredThrough L c raw m m' d b) : m'.load b = some d ∧ b < m'.idCounter := by
  obtain ⟨-, req, sh, -, hop, hd, hrespond⟩ := h
  have hshallow : ¬L.formatRoom < (opOf req).nesting := by simp [opOf, hop, Py.nesting]
  have hhandle : (H.server sh).handle m req c = H.store m sh req := by
    simp only [server, dispatch, hop, if_pos]
  simp only [respond, Rpc.dispatch, if_neg hshallow, hhandle] at hrespond
  obtain ⟨r, rfl, hr⟩ : ∃ r : StoreReq (KeyObject κ), r.data = d ∧
      AnyKey.store m sh r = (m', .ok b) := by
    split at hrespond
    · rename_i m₁ answer hstore
      obtain ⟨rfl, hanswer⟩ := Prod.mk.inj hrespond
      exact H.store_spec hd hstore (Option.some.inj hanswer)
    · split at hrespond
      · cases hrespond
      · simp [Answer.value, failed, storedHere, Part.value] at hrespond
  have hstored : (AnyKey.store m sh r).2 = .ok b := by rw [hr]
  have hok := AnyKey.store_ok hstored
  rw [hr] at hok
  exact ⟨by rw [BlockManager.load, hok.2.1]; rfl, hok.2.2.1⟩

/-- A block that is still there is what it was. -/
theorem StoredThrough.later {m m₁ m₂ : BlockManager cfg} {d : Bytes} {b : BlockId}
    (h : H.StoredThrough L c raw m m₁ d b) (hlater : AnyKey.Later m₁ m₂)
    (hthere : m₂.block b ≠ none) : m₂.load b = some d := by
  obtain ⟨hload, hlt⟩ := h.block
  rcases hlater.kept.block b hlt with hsame | hgone
  · rw [BlockManager.load, hsame]
    exact hload
  · exact absurd hgone hthere

end Host

/-! ## §3 How long a request is -/

theorem loadsJson_ok {L : Library} {raw : Bytes} {v : Py} (h : L.loadsJson raw = .ok v) :
    ∃ t, Utf8.decode raw = some t ∧ loads L.floats L.stack t = .ok v := by
  unfold Library.loadsJson at h
  split at h
  · cases h
  · rename_i t ht
    refine ⟨t, ht, ?_⟩
    split at h
    · rename_i hv
      cases h
      exact hv
    · cases h
    · cases h

section Sizes

variable {κ : Type} {cfg : Settings (KeyObject κ)} (H : Host cfg) {raw : Bytes} {req : Object}
  {d : Bytes}

/-- In JSON the payload is written in hex. -/
theorem length_json_request {L : Library} (hdecode : L.loadsJson raw = .ok (.dict req))
    (hop : Py.get req "op" = some (.str (Py.text "store")))
    (hd : H.requestPayload req = .ok (some d)) : 28 + 2 * d.length ≤ raw.length := by
  obtain ⟨t, ht, hloads⟩ := loadsJson_ok hdecode
  have hsize := size_le_of_loads hloads
  have hbytes := Utf8.length_le_of_decode ht
  rcases H.requestPayload_cases hd with hdata | ⟨hex, hhex, hpayload⟩
  · exact absurd rfl (field_ne_bytes hloads _ (Py.mem_of_get hdata) d)
  · have hne : ((.str (Py.text "op"), .str (Py.text "store")) : Py.Key × Py)
        ≠ (.str (Py.text "data_hex"), .str hex) := by
      intro heq
      exact absurd (Py.Key.str.inj (Prod.mk.inj heq).1) (by decide)
    have hsum := Py.add_le_sum (fun f => keySize f.1 + size f.2 + 2) (Py.mem_of_get hop)
      (Py.mem_of_get hhex) hne
    have hlen := length_of_fromHexText hpayload
    have hkeys : (Py.text "op").length = 2 ∧ (Py.text "store").length = 5 ∧
        (Py.text "data_hex").length = 8 := by decide
    simp only [size, sizeFields_eq, keySize] at hsum hsize
    omega

/-- In MessagePack it is written as it is, or in hex. -/
theorem length_msgpack_request {P : Packer} {v : Value} (hdecode : P.unpackb raw = some v)
    (hv : Py.ofMsgpack v = .dict req) (hop : Py.get req "op" = some (.str (Py.text "store")))
    (hd : H.requestPayload req = .ok (some d)) : 17 + d.length ≤ raw.length := by
  obtain ⟨body, rfl, rfl⟩ := Py.ofMsgpack_eq_dict hv
  have hsize := P.size_le hdecode
  have hfield : ∀ {key : String} {p : Py}, Py.get (Py.merge (Py.ofFields body)) key = some p →
      ∃ w, (.str key, w) ∈ body ∧ Py.ofMsgpack w = p := by
    intro key p hget
    obtain ⟨g, hg, hkey, hvalue⟩ := Py.mem_ofFields (Dict.mem_ofList _ (Py.mem_of_get hget))
    rw [← Py.Key.ofMsgpack_eq_str hkey]
    exact ⟨g.2, hg, hvalue⟩
  obtain ⟨w, hw, hop'⟩ := hfield hop
  obtain ⟨s, rfl, hs⟩ := Py.ofMsgpack_eq_str hop'
  have hstore : s = "store" := Py.text_injective hs
  subst hstore
  have hutf8 : (Msgpack.utf8 "op").length = 2 ∧ (Msgpack.utf8 "store").length = 5 ∧
      (Msgpack.utf8 "data").length = 4 ∧ (Msgpack.utf8 "data_hex").length = 8 := by decide
  rcases H.requestPayload_cases hd with hdata | ⟨hex, hhex, hpayload⟩
  · obtain ⟨x, hx, hbytes⟩ := hfield hdata
    obtain rfl := Py.ofMsgpack_eq_bytes hbytes
    have hsum := Py.add_le_sum (fun f => Msgpack.keySize f.1 + Msgpack.size f.2) hw hx
      (by simp)
    simp only [Msgpack.size, Msgpack.sizeFields_eq, Msgpack.keySize] at hsum hsize
    omega
  · obtain ⟨x, hx, hstr⟩ := hfield hhex
    obtain ⟨s, rfl, rfl⟩ := Py.ofMsgpack_eq_str hstr
    have hsum := Py.add_le_sum (fun f => Msgpack.keySize f.1 + Msgpack.size f.2) hw hx
      (by simp)
    have hlen := length_of_fromHexText hpayload
    have hchars : (Py.text s).length ≤ (Msgpack.utf8 s).length := by
      have hle := Utf8.length_le_encode s.toList
      rw [Utf8.encode, String.ofList_toList] at hle
      rw [length_text, ← String.length_toList]
      exact hle
    simp only [Msgpack.size, Msgpack.sizeFields_eq, Msgpack.keySize] at hsum hsize
    omega

end Sizes

/-! ## §4 Replies -/

/-- `_normalise_response`. -/
def normaliseResponse (resp : Object) : Object :=
  match Py.get resp "data" with
  | some (.bytes data) =>
      (Dict.setEntries resp (.str (Py.text "data_hex")) (.str (Py.text (toHex data)))).filter
        (fun f => f.1 ≠ .str (Py.text "data"))
  | _ => resp

/-- `bytes.fromhex(resp["data_hex"])`, for a response the CLI has read. -/
def shownPayload (resp : Object) : Option Bytes :=
  match Py.get (normaliseResponse resp) "data_hex" with
  | some (.str t) => fromHexText t
  | _ => none

/-- The CLI accepts the frame, whatever comes after it, and it decodes to `d`. -/
def Shows (w : Wire) (frame : Bytes) (rest : Stream) (d : Bytes) : Prop :=
  ∃ resp, readFrame w none ⟨frame ++ rest.bytes, rest.ending⟩ = .request (.dict resp) rest ∧
    shownPayload resp = some d

theorem readFrame_got (w : Wire) {s rest : Stream} {prefixBytes : Bytes} {length : Nat}
    (h : readExactly 4 s = .got prefixBytes rest) (hlength : BigEndian.unpack prefixBytes = length) :
    readFrame w none s
      = if Config.maxRpcMessageSize < length then .oversized length else readBody w length rest := by
  subst hlength
  simp only [readFrame, h]

/-- A frame that was written is read back up to its decoding, if its length is within the limit. -/
theorem readFrame_framed (w : Wire) {raw frame : Bytes} {v : Py} (h : framed raw = some frame)
    (hv : w.decode raw = .ok v) (rest : Stream) :
    readFrame w none ⟨frame ++ rest.bytes, rest.ending⟩
      = if Config.maxRpcMessageSize < raw.length then .oversized raw.length
        else .request v rest := by
  unfold framed at h
  split at h
  · rename_i hlt
    cases h
    have hlength : (BigEndian.pack 4 raw.length).length = 4 := BigEndian.length_pack 4 raw.length
    have hfit : raw.length < 256 ^ 4 := by omega
    have hunpack : BigEndian.unpack (BigEndian.pack 4 raw.length) = raw.length :=
      BigEndian.unpack_pack_of_lt hfit
    have hhead : readExactly 4 ⟨BigEndian.pack 4 raw.length ++ raw ++ rest.bytes, rest.ending⟩
        = .got (BigEndian.pack 4 raw.length) ⟨raw ++ rest.bytes, rest.ending⟩ := by
      rw [readExactly, if_pos (by simp only [List.length_append]; omega), List.append_assoc,
        List.take_left' hlength, List.drop_left' hlength]
    have hbody : readExactly raw.length ⟨raw ++ rest.bytes, rest.ending⟩ = .got raw rest := by
      rw [readExactly, if_pos (by simp only [List.length_append]; omega), List.take_left,
        List.drop_left]
    have hread : readBody w raw.length ⟨raw ++ rest.bytes, rest.ending⟩ = .request v rest := by
      simp only [readBody, hbody, hv]
    rw [readFrame_got w hhead hunpack, hread]
  · cases h

theorem shows_iff {w : Wire} {raw frame d : Bytes} {resp : Object} (h : framed raw = some frame)
    (hresp : w.decode raw = .ok (.dict resp)) (hd : shownPayload resp = some d) (rest : Stream) :
    Shows w frame rest d ↔ raw.length ≤ Config.maxRpcMessageSize := by
  rw [Shows, readFrame_framed w h hresp rest]
  constructor
  · rintro ⟨resp', hread, -⟩
    by_contra hlt
    rw [if_pos (Nat.lt_of_not_le hlt)] at hread
    cases hread
  · intro hle
    rw [if_neg (Nat.not_lt.mpr hle)]
    exact ⟨resp, rfl, hd⟩

/-- What comes before the payload in a JSON reply. -/
def replyHead : List Char :=
  ['\x7b', '"', 'o', 'k', '"', ':', ' ', 't', 'r', 'u', 'e', ',', ' ', '"', 'd', 'a', 't', 'a', '_',
    'h', 'e', 'x', '"', ':', ' ', '"']

/-- The reply to a load, in JSON. -/
def replyText (d : Bytes) : List Char := replyHead ++ ((toHex d).toList ++ ['"', '\x7d'])

theorem dumps_reply (L : Library) (d : Bytes) :
    dumps L.floats .default L.stack ((payloadResponse d .json).value .json)
      = .ok (replyText d) := by
  have hstack : ¬L.stack ≤ 0 := Nat.not_le.mpr (Nat.lt_of_lt_of_le Nat.two_pos L.two_le_stack)
  have hok : quote (Py.text "ok") = ['"', 'o', 'k', '"'] := by decide
  have hkey : quote (Py.text "data_hex") = ['"', 'd', 'a', 't', 'a', '_', 'h', 'e', 'x', '"'] := by
    decide
  simp only [payloadResponse, Answer.value, Part.value, List.map_cons, List.map_nil, dumps, encode,
    encodeFields, Except.map, if_neg hstack, fieldText, hok, hkey, quote_verbatim (toHex_verbatim d),
    partsText, Style.default, List.flatMap_cons, List.flatMap_nil]
  simp [replyText, replyHead]

theorem length_replyText (d : Bytes) : (replyText d).length = 28 + 2 * d.length := by
  rw [replyText, List.length_append, List.length_append, length_toHex]
  have hhead : replyHead.length = 26 := rfl
  rw [hhead, List.length_cons, List.length_cons, List.length_nil]
  omega

theorem replyText_ascii (d : Bytes) : ∀ c ∈ replyText d, c.toNat < 0x80 := by
  have hall : replyHead.all (fun c => decide (c.toNat < 0x80)) = true := by decide
  have hhead : ∀ c ∈ replyHead, c.toNat < 0x80 := fun c hc =>
    of_decide_eq_true (List.all_eq_true.mp hall c hc)
  intro c hc
  simp only [replyText, List.mem_append, List.mem_cons, List.not_mem_nil, or_false] at hc
  rcases hc with hc | hc | rfl | rfl
  · exact hhead c hc
  · have := (of_decide_eq_true (toHex_verbatim d c hc)).2.1
    omega
  · decide
  · decide

/-- A reply carries its payload, in either form. -/
theorem shown_payloadResponse (d : Bytes) (c : Codec) :
    ∃ resp, (payloadResponse d c).value c = .dict resp ∧ shownPayload resp = some d := by
  have hdata : Py.text "ok" ≠ Py.text "data" ∧ Py.text "data_hex" ≠ Py.text "data" ∧
      Py.text "data_hex" ≠ Py.text "ok" := by decide
  refine ⟨_, rfl, ?_⟩
  cases c with
  | json =>
    simp [payloadResponse, Part.value, shownPayload, normaliseResponse, Py.get, hdata,
      hdata.2.2.symm, fromHexText_text, fromHex_toHex]
  | msgpack =>
    simp [payloadResponse, Part.value, shownPayload, normaliseResponse, Py.get, Dict.setEntries,
      hdata, hdata.2.2.symm, fromHexText_text, fromHex_toHex]

/-- The frame of `v` has the body `raw`, which is read back as `v`. -/
structure WrittenAs (w : Wire) (v : Py) (raw frame : Bytes) : Prop where
  written : w.frame v = some frame
  body : framed raw = some frame
  readBack : w.decode raw = .ok v

theorem WrittenAs.shows_iff {w : Wire} {d raw frame : Bytes} {c : Codec}
    (h : WrittenAs w ((payloadResponse d c).value c) raw frame) (rest : Stream) :
    Shows w frame rest d ↔ raw.length ≤ Config.maxRpcMessageSize := by
  obtain ⟨resp, hresp, hd⟩ := shown_payloadResponse d c
  exact Rpc.shows_iff h.body (by rw [h.readBack, hresp]) hd rest

theorem canonical_reply (d : Bytes) : Canonical ((payloadResponse d .json).value .json) := by
  have hne : Py.text "ok" ≠ Py.text "data_hex" := by decide
  simp [payloadResponse, Answer.value, Part.value, Canonical, CanonicalFields, hne, joined_text]

theorem json_reply (L : Library) {d : Bytes} (hd : d.length ≤ Config.maxRpcMessageSize) :
    ∃ raw frame, WrittenAs (L.wire .json) ((payloadResponse d .json).value .json) raw frame ∧
      raw.length = 28 + 2 * d.length := by
  have hlength : (Utf8.encode (replyText d)).length = 28 + 2 * d.length := by
    rw [Utf8.length_encode_ascii (replyText_ascii d), length_replyText]
  have hfit : (Utf8.encode (replyText d)).length < 2 ^ 32 := by
    have hmax : Config.maxRpcMessageSize = 8388608 := rfl
    omega
  have hframed : framed (Utf8.encode (replyText d)) = some _ := if_pos hfit
  refine ⟨Utf8.encode (replyText d), _, ⟨?_, hframed, ?_⟩, hlength⟩
  · simp only [Library.wire, Library.frameJson, dumps_reply, hframed]
  · have hencodable : Encodable L.stack ((payloadResponse d .json).value .json) :=
      (dumps_iff L.floats .default L.stack _).mp ⟨_, dumps_reply L d⟩
    have hloads := loads_dumps L.floats .default L.stack (canonical_reply d) hencodable
      (dumps_reply L d)
    simp only [Library.wire, Library.loadsJson, Utf8.decode_encode, hloads]

/-- Two fields, the second with a payload. -/
theorem packb_payload (P : Packer) {k k' : String} {v : Value} {d : Bytes}
    (hk : (Msgpack.utf8 k).length < 32) (hk' : (Msgpack.utf8 k').length < 32)
    (hv : Msgpack.fits v = true) (hdepth : Msgpack.depth v ≤ 1)
    (hd : d.length ≤ Config.maxRpcMessageSize) :
    ∃ raw, P.packb (.map [(.str k, v), (.str k', .bin d)]) = some raw ∧
      raw.length ≤ 8 + (Msgpack.utf8 k).length + Msgpack.room v + (Msgpack.utf8 k').length
        + d.length := by
  have hmax : Config.maxRpcMessageSize = 8388608 := rfl
  have hpack : Msgpack.depth (.map [(.str k, v), (.str k', .bin d)]) ≤ Msgpack.maxPackDepth := by
    simp only [Msgpack.depth, Msgpack.depthFields, Msgpack.maxPackDepth]
    omega
  have hfits : Msgpack.fits (.map [(.str k, v), (.str k', .bin d)]) = true := by
    have hkey : ∀ {s : String}, (Msgpack.utf8 s).length < 32 → (Msgpack.Key.str s).fits = true :=
      fun h => decide_eq_true (by omega)
    have hbin : (Msgpack.Key.bin d).fits = true := decide_eq_true (by omega)
    simp [Msgpack.fits, Msgpack.fitsFields, hkey hk, hkey hk', hv, hbin]
  obtain ⟨raw, hraw, hlength⟩ := P.packs hpack hfits
  refine ⟨raw, hraw, Nat.le_trans hlength ?_⟩
  simp only [Msgpack.room, Msgpack.roomFields, Msgpack.Key.room, Msgpack.headRoom, hk, hk',
    List.length_cons, List.length_nil, if_true, if_pos (show 0 + 1 + 1 < 16 by decide)]
  omega

/-- What a client reads when two fields were packed. -/
theorem loadsMsgpack_pair (L : Library) {k k' : String} {v v' : Value} {raw : Bytes}
    (hk : Py.text k ≠ Py.text k') (h : L.packer.packb (.map [(.str k, v), (.str k', v')]) = some raw) :
    L.loadsMsgpack raw = .ok (.dict [(.str (Py.text k), .ofMsgpack v),
      (.str (Py.text k'), .ofMsgpack v')]) := by
  have hobject : Py.ofMsgpack (.map [(.str k, v), (.str k', v')])
      = .dict [(.str (Py.text k), .ofMsgpack v), (.str (Py.text k'), .ofMsgpack v')] := by
    simp only [Py.ofMsgpack, Py.ofFields, Py.Key.ofMsgpack]
    rw [Py.merge_of_nodup (by simp [hk])]
  simp only [Library.loadsMsgpack, L.packer.roundTrip h, hobject]

theorem msgpack_reply (L : Library) {d : Bytes} (hd : d.length ≤ Config.maxRpcMessageSize) :
    ∃ raw frame,
      WrittenAs (L.wire .msgpack) ((payloadResponse d .msgpack).value .msgpack) raw frame ∧
      raw.length ≤ 15 + d.length := by
  obtain ⟨raw, hraw, hlength⟩ := packb_payload L.packer (v := .bool true)
    (show (Msgpack.utf8 "ok").length < 32 by decide)
    (show (Msgpack.utf8 "data").length < 32 by decide) rfl (Nat.le_refl 1) hd
  have hutf8 : (Msgpack.utf8 "ok").length = 2 ∧ (Msgpack.utf8 "data").length = 4 := by decide
  have hmax : Config.maxRpcMessageSize = 8388608 := rfl
  have hle : raw.length ≤ 15 + d.length := by
    have hroom : Msgpack.room (.bool true) = 1 := rfl
    rw [hutf8.1, hutf8.2, hroom] at hlength
    omega
  have hframed : framed raw = some _ := if_pos (show raw.length < 2 ^ 32 by omega)
  have hvalue : ((payloadResponse d .msgpack).value .msgpack).toMsgpack
      = some (.map [(.str "ok", .bool true), (.str "data", .bin d)]) := by
    simp only [payloadResponse, Answer.value, Part.value, List.map_cons, List.map_nil, Py.toMsgpack,
      Py.toFields, Py.Key.toMsgpack, Py.string_text, Option.map_some]
  refine ⟨raw, _, ⟨?_, hframed, loadsMsgpack_pair L (by decide) hraw⟩, hle⟩
  simp only [Library.wire, Library.frameMsgpack, hvalue, Option.bind_some, hraw, hframed]

/-! ## §5 One store -/

section Share

variable {κ : Type} [DecidableEq κ] {cfg : Settings (KeyObject κ)} {H : Host cfg} (L : Library)
  {c : Codec} {raw d : Bytes} {m m' : BlockManager cfg} {b : BlockId}

/-- What the length of the request says about the payload. -/
theorem length_stored (h : H.StoredThrough L c raw m m' d b) :
    17 + d.length ≤ Config.maxRpcMessageSize ∧
      (c = .json → 28 + 2 * d.length ≤ Config.maxRpcMessageSize) := by
  obtain ⟨hlimit, req, sh, hdecode, hop, hd, -⟩ := h
  cases c with
  | json =>
    have hle := length_json_request H hdecode hop hd
    exact ⟨by omega, fun _ => by omega⟩
  | msgpack =>
    refine ⟨?_, fun h => by cases h⟩
    simp only [Library.wire, Library.loadsMsgpack] at hdecode
    split at hdecode
    · rename_i v hv
      have hle := length_msgpack_request H hv (Except.ok.inj hdecode) hop hd
      omega
    · cases hdecode

/-- A reply that is written can be read within the limit. -/
theorem reply_shows_iff (hd : 17 + d.length ≤ Config.maxRpcMessageSize) (rest : Stream) :
    ∃ frame, (L.wire c).frame ((payloadResponse d c).value c) = some frame ∧
      (Shows (L.wire c) frame rest d ↔
        (c = .json → 28 + 2 * d.length ≤ Config.maxRpcMessageSize)) := by
  have hle : d.length ≤ Config.maxRpcMessageSize := by omega
  cases c with
  | json =>
    obtain ⟨raw, frame, hwritten, hlength⟩ := json_reply L hle
    refine ⟨frame, hwritten.written, (hwritten.shows_iff rest).trans ?_⟩
    rw [hlength]
    exact ⟨fun h _ => h, fun h => h rfl⟩
  | msgpack =>
    obtain ⟨raw, frame, hwritten, hlength⟩ := msgpack_reply L hle
    refine ⟨frame, hwritten.written, (hwritten.shows_iff rest).trans ?_⟩
    exact iff_of_true (by omega) (fun h => by cases h)

/-- **Both codecs share one store**, up to the limit on frames: what was
stored in one codec is loaded in any, unless it came as MessagePack and
is too long for a JSON reply. -/
theorem codecs_share_store (hstored : H.StoredThrough L c raw m m' d b) {later : BlockManager cfg}
    (hlater : AnyKey.Later m' later) (hthere : later.block b ≠ none) {req : Object}
    (hload : H.Asks later req b) (c' : Codec) (sh : Shuffles cfg.stripeCount) (rest : Stream) :
    ∃ resp frame, (respond L (H.server sh) c' later req).2 = some resp ∧
      (L.wire c').frame resp = some frame ∧
      (Shows (L.wire c') frame rest d ↔
        ¬(c = .msgpack ∧ c' = .json ∧ Config.maxRpcMessageSize < 28 + 2 * d.length)) := by
  obtain ⟨hd, hjson⟩ := length_stored L hstored
  obtain ⟨frame, hframe, hshows⟩ := reply_shows_iff L (c := c') hd rest
  rw [H.respond_load L sh c' hload (hstored.later hlater hthere)]
  refine ⟨_, frame, rfl, hframe, hshows.trans ?_⟩
  constructor
  · rintro hle ⟨-, hc', hlt⟩
    exact absurd (hle hc') (Nat.not_le.mpr hlt)
  · intro hnot hc'
    by_contra hlt
    cases c with
    | json => exact hlt (hjson rfl)
    | msgpack => exact hnot ⟨rfl, hc', Nat.lt_of_not_le hlt⟩

end Share

/-- A node with sixteen mebibytes, whose peers and other operations do nothing. -/
def plainSettings : Settings (KeyObject Text) := ⟨16 * 1024 * 1024, 2, Nat.two_pos, fun _ => 0⟩

def plainHost : Host plainSettings where
  key := fun v =>
    match v with
    | .str s => .inl s
    | _ => .inr "unhashable type"
  hexError := fun _ => []
  durabilityError := fun _ => []
  stripeError := fun _ => []
  overflow := fun _ _ _ _ => .refused []
  elsewhere := fun _ => none
  other := fun m _ _ => (m, .ok [])
  computeResponse := fun challenge => challenge

/-- A store of `d`, as a MessagePack client sends it. -/
def storeRequest (d : Bytes) : Object :=
  [(.str (Py.text "op"), .str (Py.text "store")), (.str (Py.text "data"), .bytes d)]

/-- A load of the first block. -/
def loadRequest : Object :=
  [(.str (Py.text "op"), .str (Py.text "load")), (.str (Py.text "block_id"), .int 1)]

/-- A fresh node stores what fits. -/
theorem store_plainHost {d : Bytes} (hd : d.length ≤ Config.maxRpcMessageSize) :
    ∃ m', respond plainLibrary (plainHost.server (.identity _)) .msgpack (.init plainSettings)
        (storeRequest d) = (m', some ((storedHere 1).value .msgpack)) ∧ m'.block 1 ≠ none := by
  have hmax : Config.maxRpcMessageSize = 8388608 := rfl
  have hsize : ¬ d.length > Config.maxBlockSize := by
    have hblock : Config.maxBlockSize = 67108864 := rfl
    omega
  have hroom : ¬ ((0 : Int) + (d.length : Int) > (plainSettings.maxMemoryBytes : Int)) := by
    have hmemory : plainSettings.maxMemoryBytes = 16777216 := rfl
    omega
  have hreserve : BlockManager.reserve (.init plainSettings) d.length
      = ({ BlockManager.init plainSettings with reservedBytes := 0 + d.length }, true) :=
    if_neg hroom
  have hok : (AnyKey.store (.init plainSettings) (.identity _)
      (⟨d, .pinned, none⟩ : StoreReq (KeyObject Text))).2 = .ok 1 := by
    rw [AnyKey.store, StoreReq.size, if_neg hsize, AnyKey.acquire, hreserve]
    rfl
  have hblock := AnyKey.store_ok hok
  generalize hm' : (AnyKey.store (.init plainSettings) (.identity _)
    (⟨d, .pinned, none⟩ : StoreReq (KeyObject Text))).1 = m' at hblock
  have hstore : AnyKey.store (.init plainSettings) (.identity _)
      (⟨d, .pinned, none⟩ : StoreReq (KeyObject Text)) = (m', .ok 1) := Prod.ext hm' hok
  have hop : Py.get (storeRequest d) "op" = some (.str (Py.text "store")) := rfl
  have hhandle : (plainHost.server (.identity _)).handle (.init plainSettings) (storeRequest d)
      .msgpack = (m', .ok (storedHere 1)) := by
    have hpayload : plainHost.requestPayload (storeRequest d) = .ok (some d) := rfl
    have hdurability : durabilityOfPy ((Py.get (storeRequest d) "durability").getD
        (.str (Py.text "pinned"))) = some .pinned := rfl
    have hkey : plainHost.keyArgument ((Py.get (storeRequest d) "key").getD .none) = none := rfl
    simp only [Host.server, Host.dispatch, hop, if_true, Host.store, hpayload, hdurability, hkey,
      hstore]
  have hshallow : ¬plainLibrary.formatRoom < (opOf (storeRequest d)).nesting := by
    simp [opOf, hop, Py.nesting]
  refine ⟨m', by simp only [respond, dispatch, if_neg hshallow, hhandle], ?_⟩
  rw [hblock.2.1]
  simp

/-- The body of a MessagePack store. -/
theorem packb_storeRequest {d : Bytes} (hd : d.length + 20 ≤ Config.maxRpcMessageSize) :
    ∃ raw, (plainLibrary.wire .msgpack).decode raw = .ok (.dict (storeRequest d)) ∧
      raw.length ≤ Config.maxRpcMessageSize := by
  have hutf8 : (Msgpack.utf8 "op").length = 2 ∧ (Msgpack.utf8 "data").length = 4 ∧
      Msgpack.room (.str "store") = 6 := by decide
  obtain ⟨raw, hraw, hlength⟩ := packb_payload plainLibrary.packer (d := d) (v := .str "store")
    (show (Msgpack.utf8 "op").length < 32 by decide)
    (show (Msgpack.utf8 "data").length < 32 by decide) (by decide) (Nat.le_refl 1) (by omega)
  exact ⟨raw, loadsMsgpack_pair plainLibrary (by decide) hraw, by omega⟩

theorem asks_loadRequest (m : BlockManager plainSettings) : plainHost.Asks m loadRequest 1 :=
  ⟨rfl, Or.inl ⟨.int 1, rfl, rfl⟩⟩

/-- What a MessagePack client can store on a fresh node. -/
theorem storedThrough_plainHost {d : Bytes} (hd : d.length + 20 ≤ Config.maxRpcMessageSize) :
    ∃ raw m', plainHost.StoredThrough plainLibrary .msgpack raw (.init plainSettings) m' d 1 ∧
      m'.block 1 ≠ none := by
  obtain ⟨raw, hdecode, hlength⟩ := packb_storeRequest hd
  obtain ⟨m', hrespond, hblock⟩ := store_plainHost (d := d) (by omega)
  exact ⟨raw, m', ⟨hlength, storeRequest d, .identity _, hdecode, rfl, rfl, hrespond⟩, hblock⟩

/-- Two bytes come back in JSON. -/
theorem codecs_share_store_two : ∃ raw m' resp frame,
    plainHost.StoredThrough plainLibrary .msgpack raw (.init plainSettings) m' [7, 9] 1 ∧
      (respond plainLibrary (plainHost.server (.identity _)) .json m' loadRequest).2 = some resp ∧
      (plainLibrary.wire .json).frame resp = some frame ∧
      Shows (plainLibrary.wire .json) frame ⟨[], .eof⟩ [7, 9] := by
  obtain ⟨raw, m', hstored, hblock⟩ := storedThrough_plainHost (d := [7, 9]) (by decide)
  obtain ⟨resp, frame, hresp, hframe, hshows⟩ := codecs_share_store plainLibrary
    hstored .refl hblock (asks_loadRequest m') .json (.identity _) ⟨[], .eof⟩
  refine ⟨raw, m', resp, frame, hstored, hresp, hframe, hshows.mpr ?_⟩
  decide

/-- Four mebibytes. -/
def fourMebibytes : Bytes := List.replicate (4 * 1024 * 1024) 0

/-- Four mebibytes that were stored in MessagePack do not come back in JSON. -/
theorem json_reply_oversized : ∃ raw m' resp frame,
    plainHost.StoredThrough plainLibrary .msgpack raw (.init plainSettings) m' fourMebibytes 1 ∧
      plainHost.Asks m' loadRequest 1 ∧ m'.load 1 = some fourMebibytes ∧
      (respond plainLibrary (plainHost.server (.identity _)) .json m' loadRequest).2 = some resp ∧
      (plainLibrary.wire .json).frame resp = some frame ∧
      readFrame (plainLibrary.wire .json) none ⟨frame, .eof⟩
        = .oversized (28 + 2 * fourMebibytes.length) := by
  have hlength : fourMebibytes.length = 4194304 := List.length_replicate ..
  have hmax : Config.maxRpcMessageSize = 8388608 := rfl
  obtain ⟨raw, m', hstored, hblock⟩ := storedThrough_plainHost (d := fourMebibytes) (by omega)
  have hload := hstored.later .refl hblock
  obtain ⟨body, frame, hwritten, hbody⟩ := json_reply plainLibrary (d := fourMebibytes) (by omega)
  refine ⟨raw, m', _, frame, hstored, asks_loadRequest m', hload, ?_, hwritten.written, ?_⟩
  · rw [plainHost.respond_load plainLibrary _ .json (asks_loadRequest m') hload]
  · have hread := readFrame_framed (plainLibrary.wire .json) hwritten.body hwritten.readBack
      ⟨[], .eof⟩
    rw [List.append_nil, if_pos (by omega), hbody] at hread
    exact hread

end Memnode.Rpc
