/-
Memnode.Security.Agreement — who a completed handshake was with.

`Inv` holds in every reachable state of the network: sessions carry the
Hello they packed and a peer Hello that decoded, nonces are distinct, and
behind every completed session whose peer key is honest stands a session
of that node that signed the same hash.

`opposite` is the heart of both results. Two sessions that signed the
same hash hashed the same bytes. Both cuts of these bytes into two Hellos
are cuts at the end of an accepted msgpack object, so they are the same
cut. In the same role the own Hellos would agree, and with them the
nonces; so the sessions are in opposite roles with the Hellos swapped.

* `handshake_agreement`: an honest peer key means that this node has the
  mirror session, with crossed traffic keys and the same SAS.
* `sas_identities_iff`: an equal transcript hash alone says nothing about
  the keys: Auth frames are outside the transcript. The two ends hold each
  other's key and quota exactly when the Auth frames delivered to them
  name honest keys and announce the other end's quota.
-/
import Mathlib.Data.List.Pairwise
import Memnode.Security.Handshake

namespace Memnode.Security

open Lib

variable {E : Setting}

/-! ## Hellos -/

/-- A session's own Hello decodes to the nonce and the key it drew. -/
theorem helloFrame_decodes {p : Party} {hello : Bytes}
    (h : helloFrame E.crypto E.packer p = some hello) :
    ∃ entries, E.packer.unpackb hello = some (.map entries) ∧
      (Value.get entries "nonce").bind Value.bytes? = some p.nonce ∧
      (Value.get entries "eph_pub").bind Value.bytes? = some (E.crypto.ephPublic p.ephPriv) := by
  exact ⟨_, E.packer.roundTrip h, rfl, rfl⟩

/-! ## The invariant -/

/-- A session with what it sent and what it accepted. -/
structure Session.Ok (E : Setting) (s : Session) : Prop where
  hello : helloFrame E.crypto E.packer s.party = some s.hello
  honest : E.honest s.party.signingKey
  peer : ∀ ph, s.peerHello = some ph → ∃ entries, E.packer.unpackb ph.raw = some (.map entries) ∧
    (Value.get entries "eph_pub").bind Value.bytes? = some ph.ephPub

/-- Some session of the node with key `pubkey` signed `hash`. -/
def Signer (E : Setting) (ss : List Session) (pubkey hash : Bytes) : Prop :=
  ∃ t ∈ ss, E.crypto.idPublic t.party.signingKey = pubkey ∧ t.Signed E.crypto hash

/-- What is known of a session that completed. -/
structure Completion (E : Setting) (ss : List Session) (s : Session) (ph : PeerHello)
    (res : Completed) : Prop where
  peerHello : s.peerHello = some ph
  notSelf : res.peerPubkey ≠ E.crypto.idPublic s.party.signingKey
  keys : trafficKeys E.crypto s.party ph.ephPub (s.transcriptHash E.crypto ph)
    = some (res.sendKey, res.recvKey)
  hash : res.transcriptHash = s.transcriptHash E.crypto ph
  sas : res.sas = shortAuthenticationString E.crypto (s.transcriptHash E.crypto ph)
  auth : ∃ raw, s.peerAuth = some raw ∧ identityPubkey E.packer raw = some res.peerPubkey ∧
    announcedQuota E.packer raw = res.ramQuota
  signer : E.HonestKey res.peerPubkey → Signer E ss res.peerPubkey (s.transcriptHash E.crypto ph)

structure Inv (E : Setting) (ss : List Session) : Prop where
  ok : ∀ s ∈ ss, s.Ok E
  nonces : ss.Pairwise (fun s t => s.party.nonce ≠ t.party.nonce)
  complete : ∀ s ∈ ss, ∀ res, s.outcome = some (.ok res) → ∃ ph, Completion E ss s ph res

/-- A session only ever adds to what it has. -/
structure Evolves (s s' : Session) : Prop where
  party : s'.party = s.party
  hello : s'.hello = s.hello
  peerHello : ∀ ph, s.peerHello = some ph → s'.peerHello = some ph

theorem Evolves.signed {s s' : Session} (h : Evolves s s') {hash : Bytes}
    (hs : s.Signed E.crypto hash) : s'.Signed E.crypto hash := by
  obtain ⟨ph, hph, rfl⟩ := hs
  exact ⟨ph, h.peerHello ph hph, by simp only [Session.transcriptHash, h.party, h.hello]⟩

theorem Signer.replace {l r : List Session} {s s' : Session} (h : Evolves s s') {pubkey hash : Bytes}
    (hs : Signer E (l ++ s :: r) pubkey hash) : Signer E (l ++ s' :: r) pubkey hash := by
  obtain ⟨t, ht, hkey, hsigned⟩ := hs
  rcases List.mem_append.mp ht with ht | ht
  · exact ⟨t, by simp [ht], hkey, hsigned⟩
  · rcases List.mem_cons.mp ht with rfl | ht
    · exact ⟨s', by simp, by rw [h.party]; exact hkey, h.signed hsigned⟩
    · exact ⟨t, by simp [ht], hkey, hsigned⟩

/-- Replacing one session by what it became keeps the invariant, given
what the new one has to satisfy. -/
theorem Inv.replace {l r : List Session} {s s' : Session} (h : Inv E (l ++ s :: r))
    (hev : Evolves s s') (hpeer : ∀ ph, s'.peerHello = some ph →
      ∃ entries, E.packer.unpackb ph.raw = some (.map entries) ∧
        (Value.get entries "eph_pub").bind Value.bytes? = some ph.ephPub)
    (hdone : ∀ res, s'.outcome = some (.ok res) →
      ∃ ph, Completion E (l ++ s' :: r) s' ph res) : Inv E (l ++ s' :: r) := by
  have hs := h.ok s (by simp)
  refine ⟨fun t ht => ?_, ?_, fun t ht res hres => ?_⟩
  · rcases List.mem_append.mp ht with ht | ht
    · exact h.ok t (by simp [ht])
    · rcases List.mem_cons.mp ht with rfl | ht
      · exact ⟨by rw [hev.party, hev.hello]; exact hs.hello, by rw [hev.party]; exact hs.honest, hpeer⟩
      · exact h.ok t (by simp [ht])
  · have hn := h.nonces
    simp only [List.pairwise_append, List.pairwise_cons, List.mem_cons] at hn ⊢
    obtain ⟨hl, ⟨hsr, hr⟩, hlr⟩ := hn
    refine ⟨hl, ⟨fun t ht => by rw [hev.party]; exact hsr t ht, hr⟩, fun a ha b hb => ?_⟩
    rcases hb with rfl | hb
    · rw [hev.party]; exact hlr a ha s (Or.inl rfl)
    · exact hlr a ha b (Or.inr hb)
  · have hold : ∀ t ∈ l ++ s :: r, t.outcome = some (.ok res) →
        ∃ ph, Completion E (l ++ s' :: r) t ph res := by
      intro t ht hres
      obtain ⟨ph, hc⟩ := h.complete t ht res hres
      exact ⟨ph, hc.peerHello, hc.notSelf, hc.keys, hc.hash, hc.sas, hc.auth,
        fun hhon => (hc.signer hhon).replace hev⟩
    rcases List.mem_append.mp ht with ht | ht
    · exact hold t (by simp [ht]) hres
    · rcases List.mem_cons.mp ht with rfl | ht
      · exact hdone res hres
      · exact hold t (by simp [ht]) hres

/-- A Hello is accepted or ends the session; it does not complete it. -/
theorem Session.onHello_spec {s : Session} (hnone : s.peerHello = none) (hrunning : s.outcome = none)
    (raw : Bytes) :
    Evolves s (s.onHello E.crypto E.packer raw) ∧
      (∀ ph, (s.onHello E.crypto E.packer raw).peerHello = some ph →
        readHello E.crypto E.packer s.party raw = .ok ph) ∧
      ∀ res, (s.onHello E.crypto E.packer raw).outcome ≠ some (.ok res) := by
  unfold Session.onHello
  split
  · refine ⟨⟨rfl, rfl, fun ph hph => hph⟩, fun ph hph => ?_, by simp⟩
    rw [hnone] at hph
    cases hph
  · rename_i ph hread
    have hkeep : ∀ ph', s.peerHello = some ph' → some ph = some ph' := by simp [hnone]
    split
    · exact ⟨⟨rfl, rfl, hkeep⟩, fun ph' hph => by rw [hread, Option.some.inj hph], by simp⟩
    · exact ⟨⟨rfl, rfl, hkeep⟩, fun ph' hph => by rw [hread, Option.some.inj hph], by simp [hrunning]⟩

theorem Inv.step {ss ss' : List Session} (h : Inv E ss) (hstep : E.Step ss ss') : Inv E ss' := by
  cases hstep with
  | start _ p hello hhon hnonce _ _ hframe _ =>
    refine ⟨fun t ht => ?_, ?_, fun t ht res hres => ?_⟩
    · rcases List.mem_append.mp ht with ht | ht
      · exact h.ok t ht
      · rw [List.mem_singleton.mp ht]
        exact ⟨hframe, hhon, fun ph hph => by cases hph⟩
    · refine List.pairwise_append.mpr ⟨h.nonces, by simp, fun a ha b hb => ?_⟩
      rw [List.mem_singleton.mp hb]
      exact hnonce a ha
    · rcases List.mem_append.mp ht with ht | ht
      · obtain ⟨ph, hc⟩ := h.complete t ht res hres
        refine ⟨ph, hc.peerHello, hc.notSelf, hc.keys, hc.hash, hc.sas, hc.auth, fun hk => ?_⟩
        obtain ⟨u, hu, hkey, hsigned⟩ := hc.signer hk
        exact ⟨u, by simp [hu], hkey, hsigned⟩
      · rw [List.mem_singleton.mp ht] at hres
        cases hres
  | hello l s r raw hnone hrunning =>
    obtain ⟨hev, hread, hnot⟩ := Session.onHello_spec hnone hrunning raw
    refine h.replace hev (fun ph hph => ?_) (fun res hres => absurd hres (hnot res))
    obtain ⟨hraw, entries, hdec, _, heph⟩ := readHello_spec (hread ph hph)
    exact ⟨entries, by rw [hraw]; exact hdec, heph⟩
  | auth l s r ph raw hph hrunning hcan =>
    have hev : Evolves s (s.onAuth E.crypto E.packer ph raw) := ⟨rfl, rfl, fun _ h => h⟩
    refine h.replace hev (fun ph' hph' => (h.ok s (by simp)).peer ph' hph') (fun res hres => ?_)
    obtain ⟨hself, hkeys, hhash, hsas, hquota, signature, hcarries, hverify⟩ :=
      readAuth_spec (Option.some.inj hres)
    refine ⟨ph, hph, hself, hkeys, hhash, hsas, ⟨raw, rfl, hcarries.1, hquota.symm⟩, fun hk => ?_⟩
    exact Signer.replace hev (hcan _ _ hcarries hverify hk)

/-- The invariant holds in every reachable state. -/
theorem Setting.Reachable.inv {ss : List Session} (h : E.Reachable ss) : Inv E ss := by
  induction h with
  | refl => exact ⟨by simp, .nil, by simp⟩
  | tail _ hstep ih => exact ih.step hstep

/-! ## Same hash, opposite roles -/

/-- Sessions with the same nonce are the same session. -/
theorem Inv.eq_of_nonce {ss : List Session} (h : Inv E ss) {s t : Session} (hs : s ∈ ss) (ht : t ∈ ss)
    (heq : s.party.nonce = t.party.nonce) : s = t := by
  by_contra hne
  have : Std.Symm (fun s t : Session => s.party.nonce ≠ t.party.nonce) := ⟨fun _ _ h => Ne.symm h⟩
  exact h.nonces.forall hs ht hne heq

/-- Sessions with the same Hello are the same session. -/
theorem Inv.eq_of_hello {ss : List Session} (h : Inv E ss) {s t : Session}
    (hs : s ∈ ss) (ht : t ∈ ss) (heq : s.hello = t.hello) : s = t := by
  obtain ⟨es, hdec, hnonce, _⟩ := helloFrame_decodes (h.ok s hs).hello
  obtain ⟨et, hdec', hnonce', _⟩ := helloFrame_decodes (h.ok t ht).hello
  rw [heq, hdec'] at hdec
  cases hdec
  rw [hnonce'] at hnonce
  exact h.eq_of_nonce hs ht (Option.some.inj hnonce).symm

/-- Two different sessions that signed the same hash have opposite roles
and saw each other's Hello. -/
theorem Inv.opposite {ss : List Session} (h : Inv E ss)
    (cf : E.CollisionFree ss) {s t : Session} (hs : s ∈ ss) (ht : t ∈ ss) (hne : s ≠ t)
    {ps pt : PeerHello} (hps : s.peerHello = some ps) (hpt : t.peerHello = some pt)
    (hash : s.transcriptHash E.crypto ps = t.transcriptHash E.crypto pt) :
    t.party.isInitiator = !s.party.isInitiator ∧ ps.raw = t.hello ∧ pt.raw = s.hello := by
  have hbytes := cf s hs t ht ps pt hps hpt hash
  obtain ⟨es, hes, _⟩ := helloFrame_decodes (h.ok s hs).hello
  obtain ⟨et, het, _⟩ := helloFrame_decodes (h.ok t ht).hello
  obtain ⟨eps, heps, _⟩ := (h.ok s hs).peer ps hps
  obtain ⟨ept, hept, _⟩ := (h.ok t ht).peer pt hpt
  unfold transcript at hbytes
  cases hsi : s.party.isInitiator <;> cases hti : t.party.isInitiator <;>
    simp only [hsi, hti, if_true, Bool.false_eq_true, if_false, Bool.not_false, Bool.not_true,
      true_and] at hbytes ⊢
  · -- both responders: the own Hellos come second and agree
    have hfirst := E.packer.selfDelimiting heps hept hbytes
    rw [hfirst] at hbytes
    exact absurd (h.eq_of_hello hs ht (List.append_cancel_left hbytes)) hne
  · have hfirst := E.packer.selfDelimiting heps het hbytes
    rw [hfirst] at hbytes
    exact ⟨hfirst, (List.append_cancel_left hbytes).symm⟩
  · have hfirst := E.packer.selfDelimiting hes hept hbytes
    rw [hfirst] at hbytes
    exact ⟨List.append_cancel_left hbytes, hfirst.symm⟩
  · -- both initiators: the own Hellos come first and agree
    exact absurd (h.eq_of_hello hs ht (E.packer.selfDelimiting hes het hbytes)) hne

/-- The ephemeral key a session took from another session's Hello. -/
theorem Inv.ephPub_eq {ss : List Session} (h : Inv E ss) {s t : Session}
    (hs : s ∈ ss) (ht : t ∈ ss) {ps : PeerHello} (hps : s.peerHello = some ps)
    (hraw : ps.raw = t.hello) : ps.ephPub = E.crypto.ephPublic t.party.ephPriv := by
  obtain ⟨es, hdec, heph⟩ := (h.ok s hs).peer ps hps
  obtain ⟨et, hdec', _, heph'⟩ := helloFrame_decodes (h.ok t ht).hello
  rw [hraw, hdec'] at hdec
  cases hdec
  rw [heph'] at heph
  exact (Option.some.inj heph).symm

/-- Opposite roles turn the two halves of the key material around. -/
theorem trafficKeys_crossed {C : Crypto} (comm : C.ExchangeCommutes) {p q : Party} {hash : Bytes}
    {k k' : Bytes} (hrole : q.isInitiator = !p.isInitiator)
    (h : trafficKeys C p (C.ephPublic q.ephPriv) hash = some (k, k')) :
    trafficKeys C q (C.ephPublic p.ephPriv) hash = some (k', k) := by
  unfold trafficKeys at h ⊢
  rw [comm q.ephPriv p.ephPriv]
  obtain ⟨secret, hsecret, hkeys⟩ := Option.map_eq_some_iff.mp h
  rw [hsecret, Option.map_some, hrole]
  cases hp : p.isInitiator <;>
    simp only [hp, if_true, Bool.false_eq_true, if_false, Bool.not_false, Bool.not_true] at hkeys ⊢ <;>
    · cases hkeys; rfl

/-! ## Hellos that are relayed unchanged -/

/-- The Hello of another honest session passes the checks. -/
theorem readHello_helloFrame {p q : Party} {hello : Bytes}
    (hframe : helloFrame E.crypto E.packer q = some hello)
    (hsize : hello.length ≤ Config.maxFrameSize) (hlen : q.nonce.length = p.nonce.length)
    (hnonce : q.nonce ≠ p.nonce) (hlen' : (E.crypto.ephPublic q.ephPriv).length = 32)
    (heph : E.crypto.ephPublic q.ephPriv ≠ E.crypto.ephPublic p.ephPriv) :
    readHello E.crypto E.packer p hello
      = .ok ⟨hello, q.nonce, E.crypto.ephPublic q.ephPriv, some (.str q.nodeName)⟩ := by
  have hdec := E.packer.roundTrip hframe
  have hsize' : ¬ hello.length > Config.maxFrameSize := Nat.not_lt_of_le hsize
  simp only [Value.record] at hdec
  simp [readHello, hsize', hdec, helloFields, Value.get, Value.isOne, Value.bytes?,
    Config.protocolVersion, hlen, hnonce, hlen', heph]

/-- The fields of an Auth frame, whoever made it. -/
def authRecord (pubkey signature : Bytes) (quota : Int) : Value :=
  .record [("identity_pubkey", .bin pubkey), ("signature", .bin signature), ("ram_quota", .int quota)]

/-- What such a frame says. -/
theorem authRecord_names {pubkey signature raw : Bytes} {quota : Int}
    (hframe : E.packer.packb (authRecord pubkey signature quota) = some raw) :
    identityPubkey E.packer raw = some pubkey ∧ announcedQuota E.packer raw = .int quota ∧
      AuthCarries E.packer raw pubkey signature := by
  have hentries : authEntries E.packer raw
      = [(.str "identity_pubkey", .bin pubkey), (.str "signature", .bin signature),
        (.str "ram_quota", .int quota)] := by
    rw [authEntries, E.packer.roundTrip hframe]
    rfl
  simp [identityPubkey, announcedQuota, AuthCarries, hentries, Value.get, Value.bytes?]

/-- An Auth frame names one key and one signature. -/
theorem authCarries_authRecord {pubkey signature raw : Bytes} {quota : Int}
    (hframe : E.packer.packb (authRecord pubkey signature quota) = some raw) {pubkey' signature' : Bytes}
    (h : AuthCarries E.packer raw pubkey' signature') : pubkey' = pubkey ∧ signature' = signature := by
  obtain ⟨-, -, hkey, hsig⟩ := authRecord_names hframe
  exact ⟨Option.some.inj (h.1.symm.trans hkey), Option.some.inj (h.2.symm.trans hsig)⟩

/-- An Auth frame whose signature verifies completes the handshake. -/
theorem readAuth_authRecord {p : Party} {ph : PeerHello}
    {tHash raw pubkey signature sendKey recvKey : Bytes} {quota : Int}
    (hframe : E.packer.packb (authRecord pubkey signature quota) = some raw)
    (hsize : raw.length ≤ Config.maxFrameSize) (hlen : pubkey.length = 32)
    (hself : pubkey ≠ E.crypto.idPublic p.signingKey)
    (hverify : E.crypto.verify pubkey signature tHash = true)
    (hkeys : trafficKeys E.crypto p ph.ephPub tHash = some (sendKey, recvKey)) :
    readAuth E.crypto E.packer p ph tHash raw
      = .ok ⟨sendKey, recvKey, pubkey, ph.name, .int quota, tHash,
          shortAuthenticationString E.crypto tHash⟩ := by
  have hdec := E.packer.roundTrip hframe
  have hsize' : ¬ raw.length > Config.maxFrameSize := Nat.not_lt_of_le hsize
  simp only [authRecord, Value.record] at hdec
  simp [readAuth, hsize', hdec, Value.get, Value.bytes?, hlen, hself, hverify, hkeys]

/-- An initiator and a responder that can talk to each other, and the
Hellos they write. -/
structure Pair (E : Setting) where
  init : Party
  resp : Party
  initHello : Bytes
  respHello : Bytes
  initRole : init.isInitiator = true
  respRole : resp.isInitiator = false
  initHonest : E.honest init.signingKey
  respHonest : E.honest resp.signingKey
  initNonce : init.nonce.length = 16
  respNonce : resp.nonce.length = 16
  nonces : init.nonce ≠ resp.nonce
  ephPrivs : init.ephPriv ≠ resp.ephPriv
  initEph : (E.crypto.ephPublic init.ephPriv).length = 32
  respEph : (E.crypto.ephPublic resp.ephPriv).length = 32
  ephPubs : E.crypto.ephPublic init.ephPriv ≠ E.crypto.ephPublic resp.ephPriv
  initFrame : helloFrame E.crypto E.packer init = some initHello
  respFrame : helloFrame E.crypto E.packer resp = some respHello
  initSize : initHello.length ≤ Config.maxFrameSize
  respSize : respHello.length ≤ Config.maxFrameSize

namespace Pair

variable (P : Pair E)

/-- The hash both ends compute. -/
def hash : Bytes := E.crypto.sha256 (P.initHello ++ P.respHello)

/-- The initiator with the responder's Hello. -/
def initPeer : PeerHello :=
  ⟨P.respHello, P.resp.nonce, E.crypto.ephPublic P.resp.ephPriv, some (.str P.resp.nodeName)⟩

/-- The responder with the initiator's Hello. -/
def respPeer : PeerHello :=
  ⟨P.initHello, P.init.nonce, E.crypto.ephPublic P.init.ephPriv, some (.str P.init.nodeName)⟩

def initSession (peerAuth : Option Bytes) (outcome : Option (Except HandshakeError Completed)) :
    Session :=
  ⟨P.init, P.initHello, some P.initPeer, peerAuth, outcome⟩

def respSession (peerAuth : Option Bytes) (outcome : Option (Except HandshakeError Completed)) :
    Session :=
  ⟨P.resp, P.respHello, some P.respPeer, peerAuth, outcome⟩

theorem hash_init (raw : Option Bytes) (o : Option (Except HandshakeError Completed)) :
    (P.initSession raw o).transcriptHash E.crypto P.initPeer = P.hash := by
  simp [Session.transcriptHash, transcript, initSession, P.initRole, initPeer, hash]

theorem hash_resp (raw : Option Bytes) (o : Option (Except HandshakeError Completed)) :
    (P.respSession raw o).transcriptHash E.crypto P.respPeer = P.hash := by
  simp [Session.transcriptHash, transcript, respSession, P.respRole, respPeer, hash]

/-- Both sessions sign, once each has the other's Hello. -/
theorem reachable_signed {x y : Bytes}
    (hx : authFrame E.crypto E.packer P.init P.hash = some x)
    (hy : authFrame E.crypto E.packer P.resp P.hash = some y) :
    E.Reachable [P.initSession none none, P.respSession none none] := by
  have h₁ : E.Reachable [⟨P.init, P.initHello, none, none, none⟩] :=
    .single (.start [] P.init P.initHello P.initHonest (by simp) (by simp) P.initNonce P.initFrame
      P.initSize)
  have h₂ : E.Reachable
      [⟨P.init, P.initHello, none, none, none⟩, ⟨P.resp, P.respHello, none, none, none⟩] :=
    h₁.tail (.start _ P.resp P.respHello P.respHonest (by simpa using P.nonces)
      (by simpa using P.ephPrivs) P.respNonce P.respFrame P.respSize)
  have hinit : Session.onHello E.crypto E.packer ⟨P.init, P.initHello, none, none, none⟩ P.respHello
      = P.initSession none none := by
    have hread : readHello E.crypto E.packer P.init P.respHello = .ok P.initPeer :=
      readHello_helloFrame P.respFrame P.respSize (by rw [P.initNonce, P.respNonce])
        (Ne.symm P.nonces) P.respEph (Ne.symm P.ephPubs)
    have hhash := P.hash_init none none
    simp only [Session.onHello, hread]
    rw [show Session.transcriptHash E.crypto ⟨P.init, P.initHello, none, none, none⟩ P.initPeer = P.hash
      from hhash, hx]
    rfl
  have hresp : Session.onHello E.crypto E.packer ⟨P.resp, P.respHello, none, none, none⟩ P.initHello
      = P.respSession none none := by
    have hread : readHello E.crypto E.packer P.resp P.initHello = .ok P.respPeer :=
      readHello_helloFrame P.initFrame P.initSize (by rw [P.initNonce, P.respNonce])
        P.nonces P.initEph P.ephPubs
    have hhash := P.hash_resp none none
    simp only [Session.onHello, hread]
    rw [show Session.transcriptHash E.crypto ⟨P.resp, P.respHello, none, none, none⟩ P.respPeer = P.hash
      from hhash, hy]
    rfl
  have h₃ := h₂.tail (.hello [] _ [_] P.respHello rfl rfl)
  rw [hinit] at h₃
  have h₄ := h₃.tail (.hello [_] _ [] P.initHello rfl rfl)
  rwa [hresp] at h₄

/-- An Auth frame that can be delivered and verifies: for the initiator,
then for the responder. -/
structure Auth (E : Setting) (P : Pair E) (p : Party) (ephPub : Bytes) where
  pubkey : Bytes
  signature : Bytes
  quota : Int
  raw : Bytes
  sendKey : Bytes
  recvKey : Bytes
  frame : E.packer.packb (authRecord pubkey signature quota) = some raw
  size : raw.length ≤ Config.maxFrameSize
  length : pubkey.length = 32
  notSelf : pubkey ≠ E.crypto.idPublic p.signingKey
  verifies : E.crypto.verify pubkey signature P.hash = true
  keys : trafficKeys E.crypto p ephPub P.hash = some (sendKey, recvKey)
  signed : E.HonestKey pubkey → pubkey = E.crypto.idPublic P.init.signingKey ∨
    pubkey = E.crypto.idPublic P.resp.signingKey

/-- What the end that receives the frame returns. -/
def Auth.completed {P : Pair E} {p : Party} {ephPub : Bytes} (A : P.Auth E p ephPub)
    (name : Option Value) : Completed :=
  ⟨A.sendKey, A.recvKey, A.pubkey, name, .int A.quota, P.hash, shortAuthenticationString E.crypto P.hash⟩

theorem Auth.names {P : Pair E} {p : Party} {ephPub : Bytes} (A : P.Auth E p ephPub) :
    identityPubkey E.packer A.raw = some A.pubkey ∧
      announcedQuota E.packer A.raw = .int A.quota :=
  ⟨(authRecord_names A.frame).1, (authRecord_names A.frame).2.1⟩

theorem Auth.canDeliver {P : Pair E} {p : Party} {ephPub : Bytes}
    (A : P.Auth E p ephPub) (raw raw' : Option Bytes)
    (o o' : Option (Except HandshakeError Completed)) :
    E.CanDeliver [P.initSession raw o, P.respSession raw' o'] P.hash A.raw := by
  intro pubkey signature hcarries _ hhonest
  obtain ⟨rfl, rfl⟩ := authCarries_authRecord A.frame hcarries
  rcases A.signed hhonest with hkey | hkey
  · exact ⟨P.initSession raw o, by simp, hkey.symm, P.initPeer, rfl, P.hash_init raw o⟩
  · exact ⟨P.respSession raw' o', by simp, hkey.symm, P.respPeer, rfl, P.hash_resp raw' o'⟩

/-- Both ends complete with whatever the delivered Auth frames name. -/
theorem reachable_completed {x y : Bytes}
    (hx : authFrame E.crypto E.packer P.init P.hash = some x)
    (hy : authFrame E.crypto E.packer P.resp P.hash = some y)
    (A : P.Auth E P.init P.initPeer.ephPub) (B : P.Auth E P.resp P.respPeer.ephPub) :
    E.Reachable [P.initSession (some A.raw) (some (.ok (A.completed P.initPeer.name))),
      P.respSession (some B.raw) (some (.ok (B.completed P.respPeer.name)))] := by
  have h₀ := P.reachable_signed hx hy
  have hA : (P.initSession none none).onAuth E.crypto E.packer P.initPeer A.raw
      = P.initSession (some A.raw) (some (.ok (A.completed P.initPeer.name))) := by
    simp only [Session.onAuth, P.hash_init]
    rw [show readAuth E.crypto E.packer (P.initSession none none).party P.initPeer P.hash A.raw = _ from
      readAuth_authRecord A.frame A.size A.length A.notSelf A.verifies A.keys]
    rfl
  have hB : (P.respSession none none).onAuth E.crypto E.packer P.respPeer B.raw
      = P.respSession (some B.raw) (some (.ok (B.completed P.respPeer.name))) := by
    simp only [Session.onAuth, P.hash_resp]
    rw [show readAuth E.crypto E.packer (P.respSession none none).party P.respPeer P.hash B.raw = _ from
      readAuth_authRecord B.frame B.size B.length B.notSelf B.verifies B.keys]
    rfl
  have h₁ := h₀.tail (.auth [] _ [_] P.initPeer A.raw rfl rfl
    (by rw [P.hash_init]; exact A.canDeliver none none none none))
  rw [hA] at h₁
  have h₂ := h₁.tail (.auth [_] _ [] P.respPeer B.raw rfl rfl
    (by rw [P.hash_resp]; exact B.canDeliver _ none _ none))
  rwa [hB] at h₂

end Pair

/-! ## A run between two honest nodes -/

/-- Primitives that hide nothing: the hash is the text, a signature is the
key and the text. -/
def Crypto.transparent : Crypto where
  sha256 := id
  hkdf := fun n salt _ ikm => (ikm ++ salt ++ List.replicate n 0).take n
  encrypt := fun _ _ data _ => data
  decrypt := fun _ _ data _ => some data
  ephPublic := id
  exchange := fun priv peer => some (List.zipWith (· ^^^ ·) priv peer)
  idPublic := id
  sign := fun priv message => priv ++ message
  verify := fun pub signature message => signature = pub ++ message

theorem Crypto.transparent_commutes : Crypto.transparent.ExchangeCommutes := by
  intro a b
  show some (List.zipWith _ a b) = some (List.zipWith _ b a)
  rw [List.zipWith_comm]
  simp only [UInt8.xor_comm]

/-- Two honest nodes. -/
def twoNodes : Setting :=
  ⟨.transparent, .msgpack, fun k => k = List.replicate 32 1 ∨ k = List.replicate 32 2⟩

theorem twoNodes_collisionFree (ss : List Session) : twoNodes.CollisionFree ss :=
  fun _ _ _ _ _ _ _ _ h => h

/-- One initiator and one responder on them. -/
def twoParties : Pair twoNodes where
  init := ⟨true, List.replicate 32 1, "a", 10, List.replicate 32 5, List.replicate 16 7⟩
  resp := ⟨false, List.replicate 32 2, "b", 20, List.replicate 32 6, List.replicate 16 8⟩
  initHello := (helloFrame .transparent .msgpack
    ⟨true, List.replicate 32 1, "a", 10, List.replicate 32 5, List.replicate 16 7⟩).getD []
  respHello := (helloFrame .transparent .msgpack
    ⟨false, List.replicate 32 2, "b", 20, List.replicate 32 6, List.replicate 16 8⟩).getD []
  initRole := rfl
  respRole := rfl
  initHonest := Or.inl rfl
  respHonest := Or.inr rfl
  initNonce := rfl
  respNonce := rfl
  nonces := by decide
  ephPrivs := by decide
  initEph := rfl
  respEph := rfl
  ephPubs := by decide
  initFrame := rfl
  respFrame := rfl
  initSize := by decide
  respSize := by decide

/-- An Auth frame with any key and quota, signed with that key. -/
def twoParties.auth (p : Party) (ephPub pubkey : Bytes) (quota : Nat)
    (hframe : (Packer.msgpack.packb (authRecord pubkey (pubkey ++ twoParties.hash) quota)).isSome)
    (hsize : ((Packer.msgpack.packb (authRecord pubkey (pubkey ++ twoParties.hash) quota)).getD []).length
      ≤ Config.maxFrameSize)
    (hlen : pubkey.length = 32) (hself : pubkey ≠ p.signingKey) :
    twoParties.Auth twoNodes p ephPub where
  pubkey := pubkey
  signature := pubkey ++ twoParties.hash
  quota := quota
  raw := (Packer.msgpack.packb (authRecord pubkey (pubkey ++ twoParties.hash) quota)).getD []
  sendKey := ((trafficKeys .transparent p ephPub twoParties.hash).getD ([], [])).1
  recvKey := ((trafficKeys .transparent p ephPub twoParties.hash).getD ([], [])).2
  frame := by
    obtain ⟨raw, hraw⟩ := Option.isSome_iff_exists.mp hframe
    show Packer.msgpack.packb _ = _
    rw [hraw]
    rfl
  size := hsize
  length := hlen
  notSelf := hself
  verifies := decide_eq_true rfl
  keys := rfl
  signed := by
    rintro ⟨k, hk | hk, rfl⟩
    · exact Or.inl hk
    · exact Or.inr hk

/-- With any Auth frames that verify, both ends complete. -/
theorem twoParties.completed (A : twoParties.Auth twoNodes twoParties.init twoParties.initPeer.ephPub)
    (B : twoParties.Auth twoNodes twoParties.resp twoParties.respPeer.ephPub) :
    twoNodes.Reachable [twoParties.initSession (some A.raw) (some (.ok (A.completed twoParties.initPeer.name))),
      twoParties.respSession (some B.raw) (some (.ok (B.completed twoParties.respPeer.name)))] := by
  obtain ⟨x, hx⟩ : ∃ x, authFrame twoNodes.crypto twoNodes.packer twoParties.init twoParties.hash
      = some x := Option.isSome_iff_exists.mp (by decide +kernel)
  obtain ⟨y, hy⟩ : ∃ y, authFrame twoNodes.crypto twoNodes.packer twoParties.resp twoParties.hash
      = some y := Option.isSome_iff_exists.mp (by decide +kernel)
  exact twoParties.reachable_completed hx hy A B

/-- The Auth frames the two ends write. -/
def twoParties.fromResp : twoParties.Auth twoNodes twoParties.init twoParties.initPeer.ephPub :=
  twoParties.auth _ _ (List.replicate 32 2) 20 (by decide +kernel) (by decide +kernel) rfl (by decide)

def twoParties.fromInit : twoParties.Auth twoNodes twoParties.resp twoParties.respPeer.ephPub :=
  twoParties.auth _ _ (List.replicate 32 1) 10 (by decide +kernel) (by decide +kernel) rfl (by decide)

/-- **Handshake agreement.** A session that completes with the key of an
honest node has that node, which is another one, at the other end: a
session in the opposite role that sent the Hello this one received and
received the Hello this one sent, with crossed traffic keys and the same
short authentication string. -/
theorem handshake_agreement (E : Setting)
    (comm : E.crypto.ExchangeCommutes) (ss : List Session) (hreach : E.Reachable ss)
    (cf : E.CollisionFree ss) (a : Session) (ha : a ∈ ss) (res : Completed)
    (hdone : a.outcome = some (.ok res)) (hhonest : E.HonestKey res.peerPubkey) :
    res.peerPubkey ≠ E.crypto.idPublic a.party.signingKey ∧
    ∃ p ∈ ss, E.crypto.idPublic p.party.signingKey = res.peerPubkey ∧
      p.party.isInitiator = !a.party.isInitiator ∧
      ∃ pa pp, a.peerHello = some pa ∧ p.peerHello = some pp ∧ pa.raw = p.hello ∧ pp.raw = a.hello ∧
        trafficKeys E.crypto p.party pp.ephPub (p.transcriptHash E.crypto pp)
          = some (res.recvKey, res.sendKey) ∧
        shortAuthenticationString E.crypto (p.transcriptHash E.crypto pp) = res.sas := by
  have hinv := hreach.inv
  obtain ⟨pa, hc⟩ := hinv.complete a ha res hdone
  obtain ⟨p, hp, hkey, pp, hpp, hhash⟩ := hc.signer hhonest
  have hne : a ≠ p := by
    rintro rfl
    exact hc.notSelf hkey.symm
  obtain ⟨hrole, hpa, hppraw⟩ := hinv.opposite cf ha hp hne hc.peerHello hpp hhash.symm
  refine ⟨hc.notSelf, p, hp, hkey, hrole, pa, pp, hc.peerHello, hpp, hpa, hppraw, ?_, ?_⟩
  · have hkeys := hc.keys
    rw [hinv.ephPub_eq ha hp hc.peerHello hpa, ← hhash] at hkeys
    rw [hinv.ephPub_eq hp ha hpp hppraw]
    exact trafficKeys_crossed comm hrole hkeys
  · rw [hhash, hc.sas]

/-- The run in which both Auth frames arrive as they were written: the
initiator's peer is the responder, with crossed keys. -/
theorem handshake_agreement_twoParties :
    ∃ ss, twoNodes.Reachable ss ∧ ∃ a ∈ ss, ∃ res, a.outcome = some (.ok res) ∧
      res.peerPubkey = List.replicate 32 2 ∧
      ∃ p ∈ ss, p.party.isInitiator = false ∧ ∃ pp, p.peerHello = some pp ∧
        trafficKeys .transparent p.party pp.ephPub (p.transcriptHash .transparent pp)
          = some (res.recvKey, res.sendKey) := by
  have hreach := twoParties.completed twoParties.fromResp twoParties.fromInit
  have hhonest : twoNodes.HonestKey (List.replicate 32 2) := ⟨_, Or.inr rfl, rfl⟩
  obtain ⟨_, p, hp, _, hrole, _, pp, _, hpp, _, _, hkeys, _⟩ :=
    handshake_agreement twoNodes Crypto.transparent_commutes _ hreach
      (twoNodes_collisionFree _) _ List.mem_cons_self _ rfl hhonest
  exact ⟨_, hreach, _, List.mem_cons_self, _, rfl, rfl, p, hp, hrole, pp, hpp, hkeys⟩

/-! ## What a matching transcript hash says -/

/-- The two ends hold each other's key, and the quota the other sent. -/
def Mutual (E : Setting) (a b : Session) (ra rb : Completed) : Prop :=
  ra.peerPubkey = E.crypto.idPublic b.party.signingKey ∧
  rb.peerPubkey = E.crypto.idPublic a.party.signingKey ∧
  ra.ramQuota = .int b.party.ramQuota ∧ rb.ramQuota = .int a.party.ramQuota

/-- The Auth frame delivered to `s` names the key of some honest node,
and announces the quota of the node at the other end. -/
def AuthGenuine (E : Setting) (s other : Session) : Prop :=
  ∃ raw pubkey, s.peerAuth = some raw ∧ identityPubkey E.packer raw = some pubkey ∧
    E.HonestKey pubkey ∧ announcedQuota E.packer raw = .int other.party.ramQuota

/-- An honest peer key on one end of a matching pair is the other end's. -/
theorem Inv.peer_of_hash {ss : List Session} (h : Inv E ss)
    (cf : E.CollisionFree ss) {a b : Session} (ha : a ∈ ss) (hb : b ∈ ss)
    (hrole : b.party.isInitiator = !a.party.isInitiator) {ra rb : Completed}
    (hda : a.outcome = some (.ok ra)) (hdb : b.outcome = some (.ok rb))
    (hash : ra.transcriptHash = rb.transcriptHash) (hhonest : E.HonestKey ra.peerPubkey) :
    ra.peerPubkey = E.crypto.idPublic b.party.signingKey := by
  obtain ⟨pa, hca⟩ := h.complete a ha ra hda
  obtain ⟨pb, hcb⟩ := h.complete b hb rb hdb
  obtain ⟨p, hp, hkey, pp, hpp, hhash⟩ := hca.signer hhonest
  have hnab : a ≠ b := by
    rintro rfl
    cases hi : a.party.isInitiator <;> simp [hi] at hrole
  have hnap : a ≠ p := by
    rintro rfl
    exact hca.notSelf hkey.symm
  have hab : a.transcriptHash E.crypto pa = b.transcriptHash E.crypto pb := by
    rw [← hca.hash, ← hcb.hash, hash]
  -- the signer and the other end both own the Hello that `a` received
  obtain ⟨_, hpa, _⟩ := h.opposite cf ha hp hnap hca.peerHello hpp hhash.symm
  obtain ⟨_, hpb, _⟩ := h.opposite cf ha hb hnab hca.peerHello hcb.peerHello hab
  rw [← hkey, h.eq_of_hello hp hb (hpa.symm.trans hpb)]

/-- What an end returns was in the frame that it received. -/
theorem Inv.authGenuine_iff {ss : List Session} (h : Inv E ss) {s other : Session} (hs : s ∈ ss)
    {res : Completed} (hdone : s.outcome = some (.ok res)) :
    AuthGenuine E s other ↔
      E.HonestKey res.peerPubkey ∧ res.ramQuota = .int other.party.ramQuota := by
  obtain ⟨_, hc⟩ := h.complete s hs res hdone
  obtain ⟨raw, hraw, hkey, hquota⟩ := hc.auth
  constructor
  · rintro ⟨raw', pubkey, hraw', hkey', hhonest, hquota'⟩
    obtain rfl : raw' = raw := Option.some.inj (hraw'.symm.trans hraw)
    rw [hkey] at hkey'
    cases hkey'
    exact ⟨hhonest, hquota.symm.trans hquota'⟩
  · rintro ⟨hhonest, hquota'⟩
    exact ⟨raw, res.peerPubkey, hraw, hkey, hhonest, hquota.trans hquota'⟩

/-- **What a matching transcript hash is worth.** When an initiator and a
responder complete with the same transcript hash, hence the same SAS,
they hold each other's identity key and quota exactly when each of the
Auth frames delivered to them names some honest key in `identity_pubkey`
and the quota of the other end in `ram_quota`. -/
theorem sas_identities_iff (E : Setting) (ss : List Session)
    (hreach : E.Reachable ss) (cf : E.CollisionFree ss) (a b : Session) (ha : a ∈ ss) (hb : b ∈ ss)
    (hinit : a.party.isInitiator = true) (hresp : b.party.isInitiator = false)
    (ra rb : Completed) (hda : a.outcome = some (.ok ra)) (hdb : b.outcome = some (.ok rb))
    (hash : ra.transcriptHash = rb.transcriptHash) :
    Mutual E a b ra rb ↔ AuthGenuine E a b ∧ AuthGenuine E b a := by
  have hinv := hreach.inv
  rw [hinv.authGenuine_iff ha hda, hinv.authGenuine_iff hb hdb]
  constructor
  · rintro ⟨hka, hkb, hqa, hqb⟩
    have hha : E.HonestKey ra.peerPubkey := ⟨_, (hinv.ok b hb).honest, hka.symm⟩
    have hhb : E.HonestKey rb.peerPubkey := ⟨_, (hinv.ok a ha).honest, hkb.symm⟩
    exact ⟨⟨hha, hqa⟩, hhb, hqb⟩
  · rintro ⟨⟨hha, hqa⟩, hhb, hqb⟩
    refine ⟨hinv.peer_of_hash cf ha hb (by rw [hinit, hresp]; rfl) hda hdb hash hha,
      hinv.peer_of_hash cf hb ha (by rw [hinit, hresp]; rfl) hdb hda hash.symm hhb, hqa, hqb⟩

/-- When both Auth frames arrive as written, the ends hold each other's
key and quota. -/
theorem sas_identities_iff_twoParties :
    ∃ ss, twoNodes.Reachable ss ∧ ∃ a ∈ ss, ∃ b ∈ ss, ∃ ra rb, a.outcome = some (.ok ra) ∧
      b.outcome = some (.ok rb) ∧ ra.transcriptHash = rb.transcriptHash ∧
      Mutual twoNodes a b ra rb := by
  have hreach := twoParties.completed twoParties.fromResp twoParties.fromInit
  have hiff := sas_identities_iff twoNodes _ hreach (twoNodes_collisionFree _)
    _ _ List.mem_cons_self (List.mem_cons_of_mem _ List.mem_cons_self) rfl rfl _ _ rfl rfl rfl
  exact ⟨_, hreach, _, List.mem_cons_self, _, List.mem_cons_of_mem _ List.mem_cons_self, _, _, rfl,
    rfl, rfl, hiff.mpr
      ⟨⟨_, _, rfl, twoParties.fromResp.names.1, ⟨_, Or.inr rfl, rfl⟩, twoParties.fromResp.names.2⟩,
        _, _, rfl, twoParties.fromInit.names.1, ⟨_, Or.inl rfl, rfl⟩, twoParties.fromInit.names.2⟩⟩

/-- Auth frames of a third key, with a quota of its own. -/
def twoParties.foreignToInit : twoParties.Auth twoNodes twoParties.init twoParties.initPeer.ephPub :=
  twoParties.auth _ _ (List.replicate 32 3) 1000000000000 (by decide +kernel) (by decide +kernel) rfl
    (by decide)

def twoParties.foreignToResp : twoParties.Auth twoNodes twoParties.resp twoParties.respPeer.ephPub :=
  twoParties.auth _ _ (List.replicate 32 3) 1000000000000 (by decide +kernel) (by decide +kernel) rfl
    (by decide)

/-- An adversary relays the Hellos and replaces both Auth frames by its
own. Both ends complete with the same transcript hash and the same SAS,
and both hold the adversary's key and quota. -/
theorem sas_match_foreign_key :
    ∃ ss, twoNodes.Reachable ss ∧ twoNodes.CollisionFree ss ∧ ¬ twoNodes.honest (List.replicate 32 3) ∧
      ∃ a ∈ ss, ∃ b ∈ ss, a.party.isInitiator = true ∧ b.party.isInitiator = false ∧
        ∃ ra rb, a.outcome = some (.ok ra) ∧ b.outcome = some (.ok rb) ∧
          ra.transcriptHash = rb.transcriptHash ∧ ra.sas = rb.sas ∧
          ra.peerPubkey = List.replicate 32 3 ∧
          ra.peerPubkey ≠ twoNodes.crypto.idPublic b.party.signingKey ∧
          rb.peerPubkey ≠ twoNodes.crypto.idPublic a.party.signingKey ∧
          ra.ramQuota = .int 1000000000000 ∧ b.party.ramQuota = 20 := by
  have hreach := twoParties.completed twoParties.foreignToInit twoParties.foreignToResp
  have hforeign : ¬ twoNodes.honest (List.replicate 32 3) := by
    rintro (h | h) <;> exact absurd h (by decide)
  exact ⟨_, hreach, twoNodes_collisionFree _, hforeign, _, List.mem_cons_self, _,
    List.mem_cons_of_mem _ List.mem_cons_self, rfl, rfl, _, _, rfl, rfl, rfl, rfl, rfl,
    by decide, by decide, rfl, rfl⟩

end Memnode.Security
