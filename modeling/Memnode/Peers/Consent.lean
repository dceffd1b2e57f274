/-
Memnode.Peers.Consent — connected means trusted.

Trust is kept in three places: the trust store, the registry of connected
peers, and the `verified` flag of each registered peer. A connection is
admitted in one section (`trust` and `_register`, with no await between
them); the answer to a consent prompt comes any number of steps after
the question.

`Good` says that the three places agree. Connections, answers and
disconnects always keep it. `good_step_iff` names the two calls that do
not: `revoke_peer` of a connected identity, which leaves the registry as
it is, and `verify_peer` of a connected unverified one when the store
cannot be saved, which changes the record but not the flag.
-/
import Memnode.Peers.TrustStore

namespace Memnode.Peers

open Lib Lib.Json

/-- A registered peer: what `_register` takes from the trust store, and what it shows. -/
structure PeerInfo where
  name : Py
  addr : Text
  verified : Bool

/-- A connection that waits for the answer to its consent prompt. -/
structure Prompt where
  pubkey : Text
  name : Py
  addr : Text

/-- The parts of a `PeerManager` that have to do with trust. -/
structure Trusting where
  requireSas : Bool
  store : TrustStore
  peers : Dict Text PeerInfo
  prompts : List Prompt

namespace Trusting

/-- What can happen. A handshake in either direction ends in `connect`. -/
inductive Event where
  /-- `_check_consent`, until it returns or asks -/
  | connect (g : Setting) (pubkey : Text) (name : Py) (addr : Text)
  /-- the consent callback of a waiting connection returns -/
  | answer (g : Setting) (prompt : Nat) (approved : Bool)
  /-- a read loop ends -/
  | disconnect (pubkey : Text)
  | verifyPeer (g : Setting) (pubkey : Text) (method : Py)
  /-- `revoke_peer`; the key is whatever the request held -/
  | revokePeer (g : Setting) (pubkey : Py)

/-- `urllib.parse.quote` takes strings it can encode and bytes; it is
only called for a name that is not empty. -/
def quotable : Py → Bool
  | .str s => s.all (fun u => !(isHigh u || isLow u))
  | .bytes _ => true
  | v => !v.truthy

section Steps

variable (F : FloatFormat)

/-- The identity is recorded and registered, or the connection is dropped
because `trust` raised. -/
def trustAndRegister (m : Trusting) (g : Setting) (pubkey : Text) (name : Py) (addr : Text)
    (verified : Bool) (method : Text) : Trusting :=
  match TrustStore.trust F g pubkey name verified method addr m.store with
  | (.error _, store) => { m with store := store }
  | (.ok _, store) =>
      { m with
        store := store
        peers := m.peers.set pubkey ⟨name, addr, store.isVerified pubkey⟩ }

/-- The identity is known, and verified if that is required. An empty
record counts as none. -/
def known (m : Trusting) (pubkey : Text) : Bool :=
  match m.store.peers.get pubkey with
  | none => false
  | some entry => !entry.entries.isEmpty && (!m.requireSas || entry.isVerified)

/-- `verify_peer`: the flag follows if the record was changed and saved. -/
def verifyPeer (m : Trusting) (g : Setting) (pubkey : Text) (method : Py) : Trusting :=
  match TrustStore.markVerified F g pubkey method m.store with
  | (.ok (.bool true), store) =>
      match m.peers.get pubkey with
      | some info => { m with store := store, peers := m.peers.set pubkey { info with verified := true } }
      | none => { m with store := store }
  | (_, store) => { m with store := store }

def step (m : Trusting) : Event → Trusting
  | .connect g pubkey name addr =>
      if m.known pubkey then m.trustAndRegister F g pubkey name addr false (Py.text "tofu")
      else if quotable name then { m with prompts := m.prompts ++ [⟨pubkey, name, addr⟩] }
      else m
  | .answer g i approved =>
      match m.prompts[i]? with
      | none => m
      | some p =>
          let m := { m with prompts := m.prompts.eraseIdx i }
          if approved then
            m.trustAndRegister F g p.pubkey p.name p.addr m.requireSas
              (Py.text (if m.requireSas then "sas" else "tofu"))
          else m
  | .disconnect pubkey => { m with peers := m.peers.erase pubkey }
  | .verifyPeer g pubkey method => m.verifyPeer F g pubkey method
  | .revokePeer g pubkey => { m with store := (TrustStore.revoke F g pubkey m.store).2 }

def run (m : Trusting) (events : List Event) : Trusting := events.foldl (step F) m

end Steps

/-- A node that has just started, with the store it loaded. -/
def start (requireSas : Bool) (store : TrustStore) : Trusting := ⟨requireSas, store, .empty, []⟩

/-- Everyone connected is trusted, verified if that is required, and
flagged as the store says. -/
structure Agrees (m : Trusting) (k : Text) (info : PeerInfo) : Prop where
  trusted : m.store.isTrusted k = true
  required : m.requireSas = true → m.store.isVerified k = true
  flag : info.verified = m.store.isVerified k

def Good (m : Trusting) : Prop := ∀ k info, m.peers.get k = some info → m.Agrees k info

/-- The two calls after which the three places disagree. -/
def Breaks (F : FloatFormat) (m : Trusting) : Event → Prop
  | .verifyPeer g pubkey method =>
      (∃ info, m.peers.get pubkey = some info ∧ info.verified = false) ∧
        ∃ e, (TrustStore.markVerified F g pubkey method m.store).1 = .error e
  | .revokePeer _ (.str pubkey) => ∃ info, m.peers.get pubkey = some info
  | _ => False

/-! ## What the calls do to the record -/

section Effects

variable {F : FloatFormat}

theorem isVerified_set_of_ne (e : Entry) {field : Text} (v : Py) (h : Py.text "verified" ≠ field) :
    Entry.isVerified (e.set field v) = e.isVerified := by
  rw [Entry.isVerified, Dict.get_set, if_neg h, Entry.isVerified]

theorem isVerified_set (e : Entry) (b : Bool) :
    Entry.isVerified (e.set (Py.text "verified") (.bool b)) = b := by
  rw [Entry.isVerified, Dict.get_set_self]
  rfl

theorem isVerified_seen (e : Entry) (g : Setting) (name : Py) (verified : Bool) (method : Text) :
    (e.seen g name verified method).isVerified = (e.isVerified || verified) := by
  have hmethod : Py.text "verified" ≠ Py.text "method" := by decide
  rw [Entry.isVerified, TrustStore.get_seen, if_neg (fun h => hmethod h.1), if_pos rfl]
  rfl

theorem isVerified_addAddress {e e' : Entry} {addr : Text} (h : e.addAddress addr = .ok e') :
    e'.isVerified = e.isVerified := by
  have hne : Py.text "verified" ≠ Py.text "addresses" := by decide
  rcases TrustStore.addAddress_cases h with ⟨rfl, -⟩ | ⟨items, -, -, rfl⟩
  · rfl
  · exact isVerified_set_of_ne e _ hne

theorem isVerified_created (g : Setting) (name : Py) : (Entry.created g name).isVerified = false :=
  rfl

/-- The record of an identity, and whether it is verified, after `trust`. -/
theorem trust_peers (g : Setting) (pubkey : Text) (name : Py) (verified : Bool) (method addr : Text)
    (s : TrustStore) :
    ∃ entry, (TrustStore.trust F g pubkey name verified method addr s).2.peers
        = s.peers.set pubkey entry ∧
      entry.isVerified = (s.isVerified pubkey || verified) := by
  have hold : ((s.peers.get pubkey).getD (.created g name)).isVerified = s.isVerified pubkey := by
    unfold TrustStore.isVerified
    cases s.peers.get pubkey with
    | none => exact isVerified_created g name
    | some e => rfl
  have hseen := isVerified_seen ((s.peers.get pubkey).getD (.created g name)) g name verified method
  rw [hold] at hseen
  unfold TrustStore.trust
  dsimp only
  split
  · exact ⟨_, rfl, hseen⟩
  · rename_i entry hentry
    exact ⟨entry, TrustStore.peers_update .., by rw [isVerified_addAddress hentry, hseen]⟩

theorem update_result (g : Setting) (s : TrustStore) (peers : Dict Text Entry) (result : Py) :
    (TrustStore.update F g s peers result).1 = .ok result ∨
      ∃ e, (TrustStore.update F g s peers result).1 = .error e := by
  unfold TrustStore.update
  split
  · exact .inr ⟨_, rfl⟩
  · exact .inl rfl

/-- `mark_verified` knows the identity and verifies it, saved or not, or does nothing. -/
theorem markVerified_cases (g : Setting) (pubkey : Text) (method : Py) (s : TrustStore) :
    TrustStore.markVerified F g pubkey method s = (.ok (.bool false), s) ∨
    ∃ entry, (TrustStore.markVerified F g pubkey method s).2.peers = s.peers.set pubkey entry ∧
      entry.isVerified = true ∧
      ((TrustStore.markVerified F g pubkey method s).1 = .ok (.bool true) ∨
        ∃ e, (TrustStore.markVerified F g pubkey method s).1 = .error e) := by
  have hne : Py.text "verified" ≠ Py.text "method" := by decide
  unfold TrustStore.markVerified
  split
  · exact .inl rfl
  · rename_i entry _
    refine .inr ⟨_, TrustStore.peers_update .., ?_, update_result ..⟩
    rw [isVerified_set_of_ne _ method hne, isVerified_set]

/-- `revoke` forgets a known identity, saved or not, or does nothing. -/
theorem revoke_peers (g : Setting) (pubkey : Text) (s : TrustStore) :
    (TrustStore.revoke F g (.str pubkey) s).2.peers = s.peers.erase pubkey ∨
      s.isTrusted pubkey = false ∧ TrustStore.revoke F g (.str pubkey) s = (.ok (.bool false), s) := by
  unfold TrustStore.revoke
  dsimp only
  split
  · exact .inl (TrustStore.peers_update ..)
  · rename_i hk
    exact .inr ⟨by simpa using hk, rfl⟩

end Effects

/-! ## One step -/

section Step

variable {F : FloatFormat} {m : Trusting}

theorem isTrusted_of_set {s s' : TrustStore} {k : Text} {entry : Entry}
    (h : s'.peers = s.peers.set k entry) (k' : Text) :
    s'.isTrusted k' = (decide (k' = k) || s.isTrusted k') := by
  unfold TrustStore.isTrusted
  rw [h, Dict.get_set]
  by_cases hk : k' = k <;> simp [hk]

theorem isVerified_of_set {s s' : TrustStore} {k : Text} {entry : Entry}
    (h : s'.peers = s.peers.set k entry) (k' : Text) :
    s'.isVerified k' = if k' = k then entry.isVerified else s.isVerified k' := by
  unfold TrustStore.isVerified
  rw [h, Dict.get_set]
  by_cases hk : k' = k <;> simp [hk]

/-- Only the store and the policy matter. -/
theorem Agrees.of_eq {m' : Trusting} {k : Text} {info : PeerInfo} (h : m.Agrees k info)
    (hstore : m'.store = m.store) (hsas : m'.requireSas = m.requireSas) : m'.Agrees k info := by
  refine ⟨?_, ?_, ?_⟩
  · rw [hstore]
    exact h.trusted
  · rw [hstore, hsas]
    exact h.required
  · rw [hstore]
    exact h.flag

/-- A record is rewritten: only what is said about its identity can change. -/
theorem Agrees.of_set {k : Text} {info : PeerInfo} (h : m.Agrees k info) {store : TrustStore}
    {k' : Text} {entry : Entry} (hset : store.peers = m.store.peers.set k' entry)
    (hsame : k = k' → entry.isVerified = m.store.isVerified k) :
    Agrees { m with store := store } k info := by
  have hverified : store.isVerified k = m.store.isVerified k := by
    rw [isVerified_of_set hset]
    split
    · rename_i hk
      exact hsame hk
    · rfl
  refine ⟨?_, fun hsas => ?_, ?_⟩
  · show store.isTrusted k = true
    rw [isTrusted_of_set hset, h.trusted, Bool.or_true]
  · show store.isVerified k = true
    rw [hverified, h.required hsas]
  · show info.verified = store.isVerified k
    rw [hverified, h.flag]

/-- A connection is admitted or dropped. Verification is only claimed when
it is required, and then it already holds for a connected identity. -/
theorem good_trustAndRegister (h : m.Good) (g : Setting) (pubkey : Text) (name : Py) (addr : Text)
    {verified : Bool} (method : Text) (hclaim : verified = true → m.requireSas = true)
    (hrequired : m.requireSas = true → (m.store.isVerified pubkey || verified) = true) :
    (m.trustAndRegister F g pubkey name addr verified method).Good := by
  obtain ⟨entry, hset, hentry⟩ :=
    trust_peers (F := F) g pubkey name verified method addr m.store
  have hold : ∀ k info, m.peers.get k = some info → k = pubkey →
      entry.isVerified = m.store.isVerified k := by
    intro k info hk heq
    rw [hentry, ← heq]
    cases hv : verified with
    | false => exact Bool.or_false _
    | true => rw [(h k info hk).required (hclaim hv), Bool.true_or]
  unfold trustAndRegister
  split
  · rename_i store heq
    rw [heq] at hset
    intro k info hk
    exact (h k info hk).of_set hset (hold k info hk)
  · rename_i store heq
    rw [heq] at hset
    intro k info hk
    have hk' : (m.peers.set pubkey ⟨name, addr, store.isVerified pubkey⟩).get k = some info := hk
    rw [Dict.get_set] at hk'
    split at hk'
    · rename_i hkey
      subst hkey
      cases hk'
      refine ⟨?_, fun hsas => ?_, rfl⟩
      · show store.isTrusted k = true
        rw [isTrusted_of_set hset]
        simp
      · show store.isVerified k = true
        rw [isVerified_of_set hset, if_pos rfl, hentry, hrequired hsas]
    · exact ((h k info hk').of_set hset (hold k info hk')).of_eq rfl rfl

theorem known_required {pubkey : Text} (h : m.known pubkey = true) (hsas : m.requireSas = true) :
    m.store.isVerified pubkey = true := by
  unfold known at h
  unfold TrustStore.isVerified
  cases hget : m.store.peers.get pubkey with
  | none => simp [hget] at h
  | some entry =>
    simp only [hget, hsas, Bool.not_true, Bool.false_or, Bool.and_eq_true] at h
    exact h.2

/-- `verify_peer` that could be saved: the flag of a connected peer follows. -/
theorem good_verified (h : m.Good) {store : TrustStore} {pubkey : Text} {entry : Entry}
    (hset : store.peers = m.store.peers.set pubkey entry) (hentry : entry.isVerified = true)
    {info : PeerInfo} (hinfo : info.verified = true) :
    Good { m with store := store, peers := m.peers.set pubkey info } := by
  intro k info' hk
  have hk' : (m.peers.set pubkey info).get k = some info' := hk
  rw [Dict.get_set] at hk'
  split at hk'
  · rename_i hkey
    subst hkey
    cases hk'
    have hverified : store.isVerified k = true := by rw [isVerified_of_set hset, if_pos rfl, hentry]
    refine ⟨?_, fun _ => hverified, hinfo.trans hverified.symm⟩
    show store.isTrusted k = true
    rw [isTrusted_of_set hset]
    simp
  · rename_i hkey
    exact ((h k info' hk').of_set hset (fun heq => absurd heq hkey)).of_eq rfl rfl

/-- A record was verified and the registry was not told. -/
theorem good_unflagged_iff (h : m.Good) {store : TrustStore} {pubkey : Text} {entry : Entry}
    (hset : store.peers = m.store.peers.set pubkey entry) (hentry : entry.isVerified = true) :
    Good { m with store := store } ↔
      ¬∃ info, m.peers.get pubkey = some info ∧ info.verified = false := by
  constructor
  · rintro hgood ⟨info, hk, hflag⟩
    have hverified : store.isVerified pubkey = true := by
      rw [isVerified_of_set hset, if_pos rfl, hentry]
    have hagrees := (hgood pubkey info hk).flag.trans hverified
    rw [hflag] at hagrees
    cases hagrees
  · intro hnone k info hk
    refine (h k info hk).of_set hset ?_
    rintro rfl
    rw [hentry, ← (h k info hk).flag]
    by_contra hne
    exact hnone ⟨info, hk, by simpa using Ne.symm hne⟩

theorem good_verifyPeer_iff (h : m.Good) (g : Setting) (pubkey : Text) (method : Py) :
    (m.verifyPeer F g pubkey method).Good ↔ ¬Breaks F m (.verifyPeer g pubkey method) := by
  rcases markVerified_cases (F := F) g pubkey method m.store with heq | ⟨entry, hset, hentry, hres⟩
  · simp only [verifyPeer, Breaks, heq, reduceCtorEq, exists_false, and_false, not_false_iff, iff_true]
    exact h
  · obtain ⟨res, store, heq⟩ : ∃ res store,
        TrustStore.markVerified F g pubkey method m.store = (res, store) := ⟨_, _, rfl⟩
    simp only [heq] at hset hres
    simp only [verifyPeer, Breaks, heq]
    rcases hres with rfl | ⟨e, rfl⟩
    · simp only [reduceCtorEq, exists_false, and_false, not_false_iff, iff_true]
      cases hk : m.peers.get pubkey with
      | some info => exact good_verified h hset hentry rfl
      | none =>
        refine (good_unflagged_iff h hset hentry).mpr ?_
        rintro ⟨info, hinfo, -⟩
        rw [hk] at hinfo
        cases hinfo
    · simp only [Except.error.injEq, exists_eq', and_true]
      exact good_unflagged_iff h hset hentry

theorem good_revoke_iff (h : m.Good) (g : Setting) (pubkey : Text) :
    Good { m with store := (TrustStore.revoke F g (.str pubkey) m.store).2 } ↔
      ¬∃ info, m.peers.get pubkey = some info := by
  rcases revoke_peers (F := F) g pubkey m.store with herase | ⟨huntrusted, heq⟩
  · generalize (TrustStore.revoke F g (.str pubkey) m.store).2 = store at herase
    constructor
    · rintro hgood ⟨info, hk⟩
      have htrusted : store.isTrusted pubkey = true := (hgood pubkey info hk).trusted
      rw [TrustStore.isTrusted, herase, Dict.get_erase_self] at htrusted
      cases htrusted
    · intro hnone k info hk
      have hne : k ≠ pubkey := fun heq => hnone ⟨info, heq ▸ hk⟩
      have hget : store.peers.get k = m.store.peers.get k := by
        rw [herase, Dict.get_erase, if_neg hne]
      obtain ⟨htrusted, hreq, hflag⟩ := h k info hk
      simp only [TrustStore.isTrusted, TrustStore.isVerified, ← hget] at htrusted hreq hflag
      exact ⟨htrusted, hreq, hflag⟩
  · rw [heq]
    refine ⟨?_, fun _ => h⟩
    rintro - ⟨info, hk⟩
    rw [(h pubkey info hk).trusted] at huntrusted
    cases huntrusted

/-- From a good state, a step leads to a good one unless it is one of the two. -/
theorem good_step_iff (h : m.Good) (e : Event) : (m.step F e).Good ↔ ¬Breaks F m e := by
  cases e with
  | connect g pubkey name addr =>
    refine ⟨fun _ hb => hb, fun _ => ?_⟩
    unfold step
    dsimp only
    split
    · rename_i hknown
      refine good_trustAndRegister h g pubkey name addr _ (by simp) ?_
      intro hsas
      rw [known_required hknown hsas, Bool.true_or]
    · split
      · exact fun k info hk => (h k info hk).of_eq rfl rfl
      · exact h
  | answer g i approved =>
    refine ⟨fun _ hb => hb, fun _ => ?_⟩
    unfold step
    dsimp only
    split
    · exact h
    · rename_i p _
      have hrest : Good { m with prompts := m.prompts.eraseIdx i } :=
        fun k info hk => (h k info hk).of_eq rfl rfl
      split
      · refine good_trustAndRegister hrest g p.pubkey p.name p.addr _ (fun hsas => hsas) ?_
        intro hsas
        rw [show m.requireSas = true from hsas, Bool.or_true]
      · exact hrest
  | disconnect pubkey =>
    refine ⟨fun _ hb => hb, fun _ => ?_⟩
    intro k info hk
    have hk' : (m.peers.erase pubkey).get k = some info := hk
    rw [Dict.get_erase] at hk'
    split at hk'
    · cases hk'
    · exact (h k info hk').of_eq rfl rfl
  | verifyPeer g pubkey method => exact good_verifyPeer_iff h g pubkey method
  | revokePeer g pubkey =>
    cases pubkey with
    | str k => exact good_revoke_iff h g k
    | _ => exact ⟨fun _ hb => hb, fun _ => h⟩

end Step

/-! ## Runs -/

theorem good_start (requireSas : Bool) (store : TrustStore) : (start requireSas store).Good := by
  intro k info hk
  cases hk

theorem run_take_succ (F : FloatFormat) (m : Trusting) {events : List Event} {n : Nat} {e : Event}
    (he : events[n]? = some e) :
    run F m (events.take (n + 1)) = (run F m (events.take n)).step F e := by
  rw [run, run, List.take_add_one, he, List.foldl_append]
  rfl

/-- **When connected means trusted.** In a run of connections with any
answers, `verify_peer`, `revoke_peer` and disconnects, all states are
good exactly when no connected identity is revoked and no connected
unverified one is verified by a call that cannot be saved. -/
theorem connected_trusted_iff (F : FloatFormat) (requireSas : Bool) (store : TrustStore)
    (events : List Event) :
    (∀ n, (run F (start requireSas store) (events.take n)).Good) ↔
      ∀ n e, events[n]? = some e → ¬Breaks F (run F (start requireSas store) (events.take n)) e := by
  constructor
  · intro hgood n e he
    rw [← good_step_iff (hgood n), ← run_take_succ F _ he]
    exact hgood (n + 1)
  · intro hnot n
    induction n with
    | zero => exact good_start requireSas store
    | succ n ih =>
      cases he : events[n]? with
      | none =>
        rw [List.take_add_one, he, Option.toList_none, List.append_nil]
        exact ih
      | some e =>
        rw [run_take_succ F _ he]
        exact (good_step_iff ih e).mpr (hnot n e he)

/-- A peer connects, is approved and is revoked. It is still registered,
although the store does not know it any more. -/
theorem revoked_still_connected :
    let g := TrustStore.plainSetting
    let m := run .spelled (start false TrustStore.fresh)
      [.connect g (Py.text "ab") (.str (Py.text "laptop")) (Py.text "10.0.0.2:7"), .answer g 0 true,
        .revokePeer g (.str (Py.text "ab"))]
    (m.peers.get (Py.text "ab")).isSome = true ∧ m.store.isTrusted (Py.text "ab") = false := by
  decide +kernel

end Trusting

end Memnode.Peers
