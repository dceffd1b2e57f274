/-
Memnode.Security.Handshake — `perform_handshake`, and the sessions of a
network whose cleartext frames an adversary delivers.

One call of `perform_handshake` is a `Session`: it writes its Hello when
it opens, checks the peer's Hello and answers with its Auth, checks the
peer's Auth and completes. `readHello` and `readAuth` are the checks, in
the source's order; any other exception than the function's own is
`raised`.

The adversary reads everything and hands any bytes to any session that
waits for a frame. What it cannot do is part of the step relation: an
Auth frame whose signature verifies under the key of an honest node
exists only if a session of that node signed that transcript hash
(`CanDeliver`), since honest keys sign nothing else. Nonces and ephemeral
keys of new sessions are fresh.
-/
import Mathlib.Logic.Relation
import Memnode.Security.Channel
import Memnode.Value

namespace Memnode.Security

open Lib

/-- What ends `perform_handshake`: its own failures, or another exception
(an undecodable frame, no dictionary, no signature, a refused exchange). -/
inductive HandshakeError where
  | versionMismatch (peer : Option Value)
  | malformedNonce
  | reflectedNonce
  | malformedEphemeral
  | reflectedEphemeral
  | malformedIdentity
  | ownIdentity
  | badSignature
  | raised

/-- The arguments of one call and the values it draws. -/
structure Party where
  isInitiator : Bool
  signingKey : Bytes
  nodeName : String
  ramQuota : Int
  ephPriv : Bytes
  nonce : Bytes

/-- What a checked Hello contributes. -/
structure PeerHello where
  raw : Bytes
  nonce : Bytes
  ephPub : Bytes
  name : Option Value

/-- What `perform_handshake` returns: the channel's keys, the peer's
public key and `peer_info`. -/
structure Completed where
  sendKey : Bytes
  recvKey : Bytes
  peerPubkey : Bytes
  name : Option Value
  ramQuota : Value
  transcriptHash : Bytes
  sas : String

/-- `short_authentication_string`. -/
def shortAuthenticationString (C : Crypto) (transcriptHash : Bytes) : String :=
  let okm := C.hkdf 8 (ascii "memnode-sas-v1") (ascii "short-authentication-string") transcriptHash
  let text := toString (BigEndian.unpack okm % 10 ^ Config.sasDigits)
  String.ofList (List.replicate (Config.sasDigits - text.length) '0' ++ text.toList)

section Frames

variable (C : Crypto) (P : Packer)

/-- The fields of our own Hello. -/
def helloFields (p : Party) : List (String × Value) :=
  [("nonce", .bin p.nonce), ("eph_pub", .bin (C.ephPublic p.ephPriv)), ("name", .str p.nodeName),
    ("version", .int Config.protocolVersion)]

def helloFrame (p : Party) : Option Bytes := P.packb (.record (helloFields C p))

/-- The fields of our own Auth. -/
def authFields (p : Party) (transcriptHash : Bytes) : List (String × Value) :=
  [("identity_pubkey", .bin (C.idPublic p.signingKey)),
    ("signature", .bin (C.sign p.signingKey transcriptHash)), ("ram_quota", .int p.ramQuota)]

def authFrame (p : Party) (transcriptHash : Bytes) : Option Bytes :=
  P.packb (.record (authFields C p transcriptHash))

/-- The checks on the peer's Hello. -/
def readHello (p : Party) (raw : Bytes) : Except HandshakeError PeerHello :=
  if raw.length > Config.maxFrameSize then .error .raised
  else
    match P.unpackb raw with
    | some (.map entries) =>
        let version := Value.get entries "version"
        if version.any Value.isOne = false then .error (.versionMismatch version)
        else
          match (Value.get entries "nonce").bind Value.bytes? with
          | none => .error .malformedNonce
          | some peerNonce =>
              if peerNonce.length ≠ p.nonce.length then .error .malformedNonce
              else if peerNonce = p.nonce then .error .reflectedNonce
              else
                match (Value.get entries "eph_pub").bind Value.bytes? with
                | none => .error .malformedEphemeral
                | some ephPub =>
                    if ephPub.length ≠ 32 then .error .malformedEphemeral
                    else if ephPub = C.ephPublic p.ephPriv then .error .reflectedEphemeral
                    else .ok ⟨raw, peerNonce, ephPub, Value.get entries "name"⟩
    | _ => .error .raised

/-- The two Hellos, the initiator's first. -/
def transcript (p : Party) (hello peerHello : Bytes) : Bytes :=
  if p.isInitiator then hello ++ peerHello else peerHello ++ hello

/-- Send key and receive key, from `_derive_traffic_keys`. -/
def trafficKeys (p : Party) (peerEphPub transcriptHash : Bytes) : Option (Bytes × Bytes) :=
  (C.exchange p.ephPriv peerEphPub).map (fun sharedSecret =>
    let okm := C.hkdf 64 transcriptHash (ascii "memnode-traffic-keys-v1") sharedSecret
    if p.isInitiator then (okm.take 32, okm.drop 32) else (okm.drop 32, okm.take 32))

/-- The checks on the peer's Auth, and the result. -/
def readAuth (p : Party) (peerHello : PeerHello) (transcriptHash raw : Bytes) :
    Except HandshakeError Completed :=
  if raw.length > Config.maxFrameSize then .error .raised
  else
    match P.unpackb raw with
    | some (.map entries) =>
        match (Value.get entries "identity_pubkey").bind Value.bytes? with
        | none => .error .malformedIdentity
        | some peerPubkey =>
            if peerPubkey.length ≠ 32 then .error .malformedIdentity
            else if peerPubkey = C.idPublic p.signingKey then .error .ownIdentity
            else
              match (Value.get entries "signature").bind Value.bytes? with
              | none => .error .raised
              | some signature =>
                  if C.verify peerPubkey signature transcriptHash = false then .error .badSignature
                  else
                    match trafficKeys C p peerHello.ephPub transcriptHash with
                    | none => .error .raised
                    | some (sendKey, recvKey) =>
                        .ok {
                          sendKey := sendKey
                          recvKey := recvKey
                          peerPubkey := peerPubkey
                          name := peerHello.name
                          ramQuota := (Value.get entries "ram_quota").getD (.int 0)
                          transcriptHash := transcriptHash
                          sas := shortAuthenticationString C transcriptHash }
    | _ => .error .raised

/-! ## What the checks give -/

variable {C P}

theorem readHello_spec {p : Party} {raw : Bytes} {ph : PeerHello} (h : readHello C P p raw = .ok ph) :
    ph.raw = raw ∧ ∃ entries, P.unpackb raw = some (.map entries) ∧
      (Value.get entries "nonce").bind Value.bytes? = some ph.nonce ∧
      (Value.get entries "eph_pub").bind Value.bytes? = some ph.ephPub := by
  unfold readHello at h
  split at h
  · cases h
  split at h
  · rename_i entries hdec
    simp only at h
    split at h
    · cases h
    split at h
    · cases h
    rename_i peerNonce hnonce
    split at h
    · cases h
    split at h
    · cases h
    split at h
    · cases h
    rename_i ephPub heph
    split at h
    · cases h
    split at h
    · cases h
    cases h
    exact ⟨rfl, entries, hdec, hnonce, heph⟩
  · cases h

/-- The fields of a frame. -/
def authEntries (P : Packer) (raw : Bytes) : List (Msgpack.Key × Value) :=
  match P.unpackb raw with
  | some (.map entries) => entries
  | _ => []

/-- The key that an Auth frame names. -/
def identityPubkey (P : Packer) (raw : Bytes) : Option Bytes :=
  (Value.get (authEntries P raw) "identity_pubkey").bind Value.bytes?

/-- The quota that an Auth frame announces. -/
def announcedQuota (P : Packer) (raw : Bytes) : Value :=
  (Value.get (authEntries P raw) "ram_quota").getD (.int 0)

/-- The Auth frame carries this key and this signature. -/
def AuthCarries (P : Packer) (raw pubkey signature : Bytes) : Prop :=
  identityPubkey P raw = some pubkey ∧
    (Value.get (authEntries P raw) "signature").bind Value.bytes? = some signature

theorem readAuth_spec {p : Party} {ph : PeerHello} {tHash raw : Bytes} {res : Completed}
    (h : readAuth C P p ph tHash raw = .ok res) :
    res.peerPubkey ≠ C.idPublic p.signingKey ∧
      trafficKeys C p ph.ephPub tHash = some (res.sendKey, res.recvKey) ∧
      res.transcriptHash = tHash ∧ res.sas = shortAuthenticationString C tHash ∧
      res.ramQuota = announcedQuota P raw ∧
      ∃ signature, AuthCarries P raw res.peerPubkey signature ∧
        C.verify res.peerPubkey signature tHash = true := by
  unfold readAuth at h
  split at h
  · cases h
  split at h
  · rename_i entries hdec
    split at h
    · cases h
    rename_i peerPubkey hkey
    split at h
    · cases h
    split at h
    · cases h
    rename_i hown
    split at h
    · cases h
    rename_i signature hsig
    split at h
    · cases h
    rename_i hverify
    split at h
    · cases h
    rename_i sendKey recvKey hkeys
    cases h
    have hentries : authEntries P raw = entries := by rw [authEntries, hdec]
    refine ⟨hown, hkeys, rfl, rfl, ?_, signature, ⟨?_, ?_⟩, by simpa using hverify⟩
    · rw [announcedQuota, hentries]
    · rw [identityPubkey, hentries, hkey]
    · rw [hentries, hsig]
  · cases h

end Frames

/-! ## Sessions and the network -/

/-- One call of `perform_handshake`, under way or ended. `peerHello` is
set once the peer's Hello passed, which is when the transcript is signed;
`peerAuth` is the frame that arrived after it. -/
structure Session where
  party : Party
  hello : Bytes
  peerHello : Option PeerHello
  peerAuth : Option Bytes
  outcome : Option (Except HandshakeError Completed)

namespace Session

variable (C : Crypto) (P : Packer)

/-- The transcript hash of a session that accepted `peerHello`. -/
def transcriptHash (s : Session) (peerHello : PeerHello) : Bytes :=
  C.sha256 (transcript s.party s.hello peerHello.raw)

/-- The peer's Hello arrives. -/
def onHello (s : Session) (raw : Bytes) : Session :=
  match readHello C P s.party raw with
  | .error e => { s with outcome := some (.error e) }
  | .ok peerHello =>
      match authFrame C P s.party (s.transcriptHash C peerHello) with
      | none => { s with peerHello := some peerHello, outcome := some (.error .raised) }
      | some _ => { s with peerHello := some peerHello }

/-- The peer's Auth arrives. -/
def onAuth (s : Session) (peerHello : PeerHello) (raw : Bytes) : Session :=
  { s with
    peerAuth := some raw
    outcome := some (readAuth C P s.party peerHello (s.transcriptHash C peerHello) raw) }

/-- The session signed this hash. -/
def Signed (s : Session) (hash : Bytes) : Prop :=
  ∃ peerHello, s.peerHello = some peerHello ∧ s.transcriptHash C peerHello = hash

end Session

/-- The library functions, and which signing keys belong to honest nodes. -/
structure Setting where
  crypto : Crypto
  packer : Packer
  honest : Bytes → Prop

namespace Setting

variable (E : Setting)

/-- The public key of an honest node. -/
def HonestKey (pubkey : Bytes) : Prop := ∃ k, E.honest k ∧ E.crypto.idPublic k = pubkey

/-- Signatures are unforgeable: under an honest key, only what a session
of that node signed verifies. -/
def CanDeliver (ss : List Session) (hash raw : Bytes) : Prop :=
  ∀ pubkey signature, AuthCarries E.packer raw pubkey signature →
    E.crypto.verify pubkey signature hash = true → E.HonestKey pubkey →
      ∃ s ∈ ss, E.crypto.idPublic s.party.signingKey = pubkey ∧ s.Signed E.crypto hash

/-- One event on the network. -/
inductive Step : List Session → List Session → Prop where
  /-- an honest node calls `perform_handshake` and its Hello is written -/
  | start (ss : List Session) (p : Party) (hello : Bytes) :
      E.honest p.signingKey → (∀ s ∈ ss, s.party.nonce ≠ p.nonce) →
      (∀ s ∈ ss, s.party.ephPriv ≠ p.ephPriv) → p.nonce.length = 16 →
      helloFrame E.crypto E.packer p = some hello → hello.length ≤ Config.maxFrameSize →
      Step ss (ss ++ [⟨p, hello, none, none, none⟩])
  /-- some bytes arrive where a Hello is awaited -/
  | hello (l : List Session) (s : Session) (r : List Session) (raw : Bytes) :
      s.peerHello = none → s.outcome = none →
      Step (l ++ s :: r) (l ++ s.onHello E.crypto E.packer raw :: r)
  /-- some bytes arrive where an Auth is awaited -/
  | auth (l : List Session) (s : Session) (r : List Session) (peerHello : PeerHello) (raw : Bytes) :
      s.peerHello = some peerHello → s.outcome = none →
      E.CanDeliver (l ++ s :: r) (s.transcriptHash E.crypto peerHello) raw →
      Step (l ++ s :: r) (l ++ s.onAuth E.crypto E.packer peerHello raw :: r)

/-- The states some run reaches. -/
def Reachable (ss : List Session) : Prop := Relation.ReflTransGen E.Step [] ss

/-- No two transcripts that were hashed in the run collide. -/
def CollisionFree (ss : List Session) : Prop :=
  ∀ s ∈ ss, ∀ s' ∈ ss, ∀ ph ph', s.peerHello = some ph → s'.peerHello = some ph' →
    s.transcriptHash E.crypto ph = s'.transcriptHash E.crypto ph' →
      transcript s.party s.hello ph.raw = transcript s'.party s'.hello ph'.raw

end Setting

end Memnode.Security
