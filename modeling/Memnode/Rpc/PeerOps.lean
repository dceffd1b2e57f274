/-
Memnode.Rpc.PeerOps — the operations of `RpcServer._dispatch` on
connected peers.

A `Node` is what `_dispatch` works on: the blocks, the connected peers in
the order of the `peers` dictionary, and the trust store. `cluster` is
the part of it that the block operations of `Dispatch` see.

Five answers name a peer, each by the first eight characters of its
identity; six operations take such a name back and hand it to
`_resolve_peer`. The three of them that are not in `Dispatch` go through
`onPeer`.

Left out: the await between `_resolve_peer` and what follows. A peer that
leaves there is reported as not connected.
-/
import Memnode.Rpc.Dispatch
import Memnode.Peers.TrustStore

namespace Memnode.Rpc

open Lib Blocks Replication

/-- The interpreter, with what the peer operations take from libraries. -/
structure Display (K : Type) extends Runtime K where
  /-- how `json` spells floats, for the file of the trust store -/
  floats : Json.FloatFormat
  /-- the text of what the trust store raises -/
  trustError : Peers.TrustError → String
  /-- `urllib.parse.quote`, or the text of what it raises -/
  quote : Value → Except String String
  /-- `render_qr_ascii` -/
  renderQrAscii : String → Option String

/-- A `PeerInfo`, apart from `pubkey_hex`, which is its key in `peers`. -/
structure PeerInfo (K : Type) where
  peer : Peer K
  name : Value
  addr : String
  sas : String
  verified : Bool

structure Node (K : Type) where
  cfg : Settings (KeyObject K)
  manager : BlockManager cfg
  chunking : Chunking
  peers : Dict String (PeerInfo K)
  trustStore : Peers.TrustStore

/-- The operations on peers. -/
inductive PeerOp where
  | peers
  | verifyPeer
  | revokePeer
  | pair
  deriving DecidableEq

/-- A request: one on blocks, or one on peers with what the trust store
finds around it. -/
inductive Call where
  | blocks (t : Turn)
  | peer (op : PeerOp) (g : Peers.Setting) (body : Body)

def Call.body : Call → Body
  | .blocks t => t.request.body
  | .peer _ _ body => body

/-- `list_peers()`, one entry. -/
def PeerInfo.listed {K : Type} (pubkey : String) (info : PeerInfo K) : Py :=
  .dict ([("pubkey", .str (Py.text (short pubkey))), ("name", .ofMsgpack info.name),
    ("addr", .str (Py.text info.addr)), ("remote_quota", .int info.peer.remoteQuota),
    ("verified", .bool info.verified), ("sas", .str (Py.text info.sas))].map
      (fun f => (.str (Py.text f.1), f.2)))

section Operations

variable {K : Type} [DecidableEq K] (D : Display K)

/-- `pairing_uri(pubkey_hex, sas, name)`; the error is the text of what it raises. -/
def pairingUri (pubkey sas : String) (name : Value) : Except String String :=
  let uri := "memcloud://pair?pk=" ++ pubkey ++ (if sas = "" then "" else "&sas=" ++ sas)
  if name.truthy then (D.quote name).map (fun quoted => uri ++ "&name=" ++ quoted) else .ok uri

/-- What `pair` adds if `qr` is asked for. -/
def qrFields (uri : String) (body : Body) : Answer :=
  if ((Value.get body "qr").getD .nil).truthy then
    match D.renderQrAscii uri with
    | some qr => [("qr", .text (Py.text qr))]
    | none =>
        [("qr", .none),
          ("qr_error", .text (Py.text "install the optional 'qrcode' package for ASCII QR output"))]
  else []

namespace Node

/-- What the block operations see of the node. -/
def cluster (n : Node K) : Cluster K :=
  ⟨n.cfg, n.manager, n.chunking, n.peers.map (fun _ info => info.peer)⟩

/-- The node after a block operation. -/
def withCluster (n : Node K) (c : Cluster K) : Node K :=
  { n with
    cfg := c.cfg
    manager := c.manager
    peers := n.peers.map (fun pubkey info => { info with peer := (c.peers.get pubkey).getD info.peer }) }

/-- `_resolve_peer(name)`. -/
def resolvePeer (n : Node K) (name : Value) : Except String String :=
  n.cluster.resolvePeer D.toInterpreter name

/-- `list_peers()`. -/
def listPeers (n : Node K) : Py := .list (n.peers.entries.map (fun e => e.2.listed e.1))

/-- `peer_manager.verify_peer(pubkey, method)`: the flag follows if the record was saved. -/
def verifyPeer (n : Node K) (g : Peers.Setting) (pubkey : String) (method : Value) :
    Node K × Except String Bool :=
  match Peers.TrustStore.markVerified D.floats g (Py.text pubkey) (Py.ofMsgpack method)
      n.trustStore with
  | (.error e, store) => ({ n with trustStore := store }, .error (D.trustError e))
  | (.ok (.bool true), store) =>
      match n.peers.get pubkey with
      | none => ({ n with trustStore := store }, .ok true)
      | some info =>
          ({ n with
              trustStore := store
              peers := n.peers.set pubkey { info with verified := true } }, .ok true)
  | (.ok _, store) => ({ n with trustStore := store }, .ok false)

/-- `trust_store.revoke(pubkey)`, whatever the key is. -/
def revoke (n : Node K) (g : Peers.Setting) (pubkey : Value) : Node K × Except String Answer :=
  match Peers.TrustStore.revoke D.floats g (Py.ofMsgpack pubkey) n.trustStore with
  | (.error e, store) => ({ n with trustStore := store }, .error (D.trustError e))
  | (.ok (.bool true), store) => ({ n with trustStore := store }, .ok [("ok", .bool true)])
  | (.ok _, store) => ({ n with trustStore := store }, .ok [("ok", .bool false)])

/-- `pubkey = await self._resolve_peer(req["peer"])`, and what follows it. -/
def onPeer (n : Node K) (body : Body) (act : String → Node K × Except String Answer) :
    Node K × Except String Answer :=
  match Value.get body "peer" with
  | none => (n, .error (missingField "peer"))
  | some name =>
      match n.resolvePeer D name with
      | .error text => (n, .error text)
      | .ok pubkey => act pubkey

/-- `op == "verify_peer"`, after the peer is resolved. -/
def verifyPeerAt (n : Node K) (g : Peers.Setting) (body : Body) (pubkey : String) :
    Node K × Except String Answer :=
  match n.verifyPeer D g pubkey ((Value.get body "method").getD (.str "sas")) with
  | (n', .error text) => (n', .error text)
  | (n', .ok ok) => (n', .ok [("ok", .bool ok), ("peer", .text (Py.text (short pubkey)))])

/-- `op == "pair"`, after the peer is resolved. -/
def pairAt (n : Node K) (body : Body) (pubkey : String) : Except String Answer :=
  match n.peers.get pubkey with
  | none => .ok (failed (Py.text "peer not connected"))
  | some info =>
      match pairingUri D pubkey info.sas info.name with
      | .error text => .error text
      | .ok uri =>
          .ok ([("ok", .bool true), ("peer", .text (Py.text (short pubkey))),
            ("sas", .text (Py.text info.sas)), ("uri", .text (Py.text uri)),
            ("verified", .bool info.verified)] ++ qrFields D uri body)

/-- `op == "revoke_peer"`: a key in the request goes before a name. -/
def revokePeer (n : Node K) (g : Peers.Setting) (body : Body) : Node K × Except String Answer :=
  let pubkey := (Value.get body "pubkey").getD .nil
  if pubkey.truthy then n.revoke D g pubkey
  else n.onPeer D body (fun pubkey => n.revoke D g (.str pubkey))

/-- `_dispatch`, for the operations on peers. -/
def dispatchPeer (n : Node K) (g : Peers.Setting) (body : Body) :
    PeerOp → Node K × Except String Answer
  | .peers => (n, .ok [("ok", .bool true), ("peers", .foreign n.listPeers)])
  | .verifyPeer => n.onPeer D body (n.verifyPeerAt D g body)
  | .revokePeer => n.revokePeer D g body
  | .pair => n.onPeer D body (fun pubkey => (n, n.pairAt D body pubkey))

/-- The request part of `_handle_client`. -/
def handle (n : Node K) : Call → Node K × Answer
  | .blocks t =>
      let done := n.cluster.handle D.toRuntime t
      (n.withCluster done.1, done.2)
  | .peer op g body =>
      let done := n.dispatchPeer D g body op
      (done.1, Cluster.answerOf done.2)

end Node

end Operations

/-! ## Who is connected -/

namespace Node

variable {K : Type} [DecidableEq K]

omit [DecidableEq K] in
@[simp] theorem keys_cluster (n : Node K) : n.cluster.peers.keys = n.peers.keys :=
  Dict.keys_map _ _

omit [DecidableEq K] in
@[simp] theorem keys_withCluster (n : Node K) (c : Cluster K) :
    (n.withCluster c).peers.keys = n.peers.keys := Dict.keys_map _ _

omit [DecidableEq K] in
theorem keys_verifyPeer (D : Display K) (n : Node K) (g : Peers.Setting) (pubkey : String)
    (method : Value) : (n.verifyPeer D g pubkey method).1.peers.keys = n.peers.keys := by
  unfold verifyPeer
  split
  · rfl
  · split
    · rfl
    · rename_i info hinfo
      exact Dict.keys_set_of_some hinfo _
  · rfl

omit [DecidableEq K] in
theorem keys_verifyPeerAt (D : Display K) (n : Node K) (g : Peers.Setting) (body : Body)
    (pubkey : String) : (n.verifyPeerAt D g body pubkey).1.peers.keys = n.peers.keys := by
  have hkeys := keys_verifyPeer D n g pubkey ((Value.get body "method").getD (.str "sas"))
  unfold verifyPeerAt
  split <;> rename_i heq <;> rw [heq] at hkeys <;> exact hkeys

omit [DecidableEq K] in
theorem peers_revoke (D : Display K) (n : Node K) (g : Peers.Setting) (pubkey : Value) :
    (n.revoke D g pubkey).1.peers = n.peers := by
  unfold revoke
  split <;> rfl

omit [DecidableEq K] in
/-- What holds of the node a resolved operation leaves, and of the node
itself, holds of what `onPeer` leaves. -/
theorem onPeer_induction {D : Display K} {n : Node K} {body : Body}
    {act : String → Node K × Except String Answer} {P : Node K → Prop} (hself : P n)
    (hact : ∀ pubkey, P (act pubkey).1) : P (n.onPeer D body act).1 := by
  unfold onPeer
  split
  · exact hself
  · split
    · exact hself
    · exact hact _

/-- No request connects or disconnects a peer, or moves it in the table. -/
theorem keys_handle (D : Display K) (n : Node K) (call : Call) :
    (n.handle D call).1.peers.keys = n.peers.keys := by
  cases call with
  | blocks t => exact keys_withCluster n _
  | peer op g body =>
    show (n.dispatchPeer D g body op).1.peers.keys = n.peers.keys
    cases op with
    | peers => rfl
    | verifyPeer =>
      exact onPeer_induction (P := fun n' => n'.peers.keys = n.peers.keys) rfl
        (keys_verifyPeerAt D n g body)
    | revokePeer =>
      simp only [dispatchPeer, revokePeer]
      split
      · rw [peers_revoke]
      · refine onPeer_induction (P := fun n' => n'.peers.keys = n.peers.keys) rfl fun pubkey => ?_
        rw [peers_revoke]
    | pair =>
      exact onPeer_induction (P := fun n' => n'.peers.keys = n.peers.keys) rfl fun _ => rfl

end Node

end Memnode.Rpc
