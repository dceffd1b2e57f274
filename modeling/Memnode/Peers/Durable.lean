/-
Memnode.Peers.Durable — when a call to the trust store is atomic and
durable.

A call owes one of two things (`Durable`): it returns and the file reads
back as the record in memory, or it raises, the record is as before, and
calls about other identities still return. The record is changed before
all of it is written, so neither is sure.

    Durable F room limit s g c ↔ Holds F room limit s g c

for every store a decoder can have filled. `Holds` goes by what kind of
call it is, and looks only at the call, the records and the file before
it. A call with something to record is durable exactly if all that the
records hold after it can be written and is equal to itself: one object
of the wrong kind, in any record, is enough to fail. That calls return
later is the same as that all records can be written and the others have
a list for their addresses (`later_iff`).
-/
import Mathlib.Data.List.Chain
import Mathlib.Data.List.Infix
import Memnode.Peers.TrustStore

namespace Memnode.Peers.TrustStore

open Lib Lib.Json

section Contract

variable (F : FloatFormat) (room limit : Nat)

/-- Calls about other identities than `x` return. -/
def LaterSucceed (s : TrustStore) (x : Option Text) : Prop :=
  ∀ g c k, g.Fits room → CleanCall room c → c.subject = some k → x ≠ some k →
    ∃ v s', run F g s c = (.ok v, s')

/-- What a call owes. -/
def Durable (s : TrustStore) (g : Setting) (c : Call) : Prop :=
  (∃ v s', run F g s c = (.ok v, s') ∧ InSync F limit s') ∨
  (∃ e s', run F g s c = (.error e, s') ∧ s'.peers = s.peers ∧ LaterSucceed F room s' c.subject)

/-- The records can be written, and another address can be added to those
of other identities than `x`. -/
structure Open (s : TrustStore) (x : Option Text) : Prop where
  written : PeersAll (Encodable room) s.peers
  listed : ∀ k e v, x ≠ some k → s.peers.get k = some e →
    e.get (Py.text "addresses") = some v → ∃ items, v = .list items

/-- An object that `json.dumps` writes in `room` levels, and that is equal
to its copy. -/
def Writable (room : Nat) (v : Py) : Prop := Encodable room v ∧ Py.NanFree v

def Holds (s : TrustStore) (g : Setting) (c : Call) : Prop :=
  match c.kind s with
  | .idle => InSync F limit s
  | .refused => Open room s c.subject
  | .stuck => c.Repeats g s ∧ Open room s c.subject
  | .records => Recordable (Writable (g.stack - 3)) s c

/-- Arguments as the decoders return them. -/
def Call.Received (c : Call) : Prop := c.Texts ∧ ∀ v, c.added = some v → Decoded v

end Contract

theorem basic_true : Basic (fun _ => True) :=
  .ofItems (P := fun _ => True) (fun _ => trivial) (fun _ => trivial) (fun _ => ⟨trivial, trivial⟩)
    (fun _ => by simp)

theorem basic_nanFree : Basic Py.NanFree :=
  .ofItems (fun _ _ h => by cases h)
    (fun g _ h => by cases h; exact Py.isNaN_eq_false g.now_finite)
    (fun _ => ⟨fun _ h => (by cases h), fun _ h => (by cases h)⟩) (fun _ => Py.nanFree_list)

theorem basic_writable {room : Nat} (hroom : 0 < room) : Basic (Writable room) :=
  (basic_encodable hroom).and basic_nanFree

theorem decoded_str {s : Text} (hs : Joined s) : Decoded (.str s) where
  text := fun _ h => by cases h; exact hs
  keys := fun _ h => by cases h

theorem basic_decoded : Basic Decoded :=
  .ofItems (fun _ => ⟨fun _ h => (by cases h), fun _ h => (by cases h)⟩)
    (fun _ => ⟨fun _ h => (by cases h), fun _ h => (by cases h)⟩)
    (fun hs => ⟨decoded_str hs, decoded_str hs⟩) (fun _ => decoded_list)

/-! ## New texts -/

/-- A text longer than the given ones. -/
theorem exists_longer (texts : List Text) :
    ∃ t : Text, t ≠ [] ∧ Joined t ∧ ∀ t' ∈ texts, t'.length < t.length := by
  induction texts with
  | nil => exact ⟨Py.text "x", by decide, joined_text _, by simp⟩
  | cons t₀ rest ih =>
    obtain ⟨t, hne, ht, hrest⟩ := ih
    refine ⟨List.replicate (t₀.length + t.length + 1) 120, by simp, ⟨by simp, ?_⟩, ?_⟩
    · exact List.isChain_replicate_of_rel _ (by decide)
    · intro t' ht'
      rw [List.length_replicate]
      rcases List.mem_cons.mp ht' with rfl | ht'
      · omega
      · have := hrest t' ht'
        omega

/-- An identity without a record. -/
theorem exists_unknown (peers : Dict Text Entry) (x : Option Text) :
    ∃ k, Joined k ∧ x ≠ some k ∧ peers.get k = none := by
  obtain ⟨k, -, hk, hlonger⟩ := exists_longer (x.toList ++ peers.entries.map Prod.fst)
  refine ⟨k, hk, ?_, ?_⟩
  · rintro rfl
    exact Nat.lt_irrefl _ (hlonger k (by simp))
  · by_contra hsome
    obtain ⟨e, he⟩ := Option.ne_none_iff_exists'.mp hsome
    have hmem := List.mem_map_of_mem (f := Prod.fst) ((peers.get_eq_some_iff k e).mp he)
    exact Nat.lt_irrefl _ (hlonger k (List.mem_append_right _ hmem))

/-- An address that cannot be added to what is no list. -/
theorem exists_address {v : Py} (hv : ∀ items, v ≠ .list items) :
    ∃ addr, addr ≠ [] ∧ Joined addr ∧ takesAddress addr v = false := by
  cases v with
  | list items => exact absurd rfl (hv items)
  | str s =>
    obtain ⟨addr, hne, haddr, hlonger⟩ := exists_longer [s]
    refine ⟨addr, hne, haddr, List.any_eq_false.mpr fun t ht hpre => ?_⟩
    have hle := (List.isPrefixOf_iff_prefix.mp hpre).length_le
    have hsuffix := ((List.mem_tails _ _).mp ht).length_le
    have := hlonger s (by simp)
    omega
  | dict fields =>
    obtain ⟨addr, hne, haddr, hlonger⟩ := exists_longer
      (fields.filterMap (fun f => (Entry.field f).map Prod.fst))
    refine ⟨addr, hne, haddr, List.any_eq_false.mpr ?_⟩
    rintro ⟨k, v⟩ hf heq
    obtain rfl : k = .str addr := of_decide_eq_true heq
    exact Nat.lt_irrefl _ (hlonger addr (List.mem_filterMap.mpr ⟨_, hf, rfl⟩))
  | _ => exact ⟨Py.text "x", by decide, joined_text _, rfl⟩

/-! ## Later calls -/

section Later

variable {F : FloatFormat} {room limit : Nat} {s : TrustStore}

theorem update_iff {g : Setting} (hdisk : g.disk = true) (peers : Dict Text Entry) (result : Py) :
    (∃ v s', update F g s peers result = (.ok v, s')) ↔ Encodable g.stack (payload peers) := by
  rw [← save_iff (F := F) hdisk { s with peers := peers }]
  unfold update
  constructor
  · rintro ⟨v, s', h⟩
    split at h
    · cases h
    · rename_i hsave
      exact ⟨_, hsave⟩
  · rintro ⟨s', hsave⟩
    exact ⟨result, s', by rw [hsave]⟩

theorem encodable_stack {room : Nat} {g : Setting} (hg : g.Fits room) {peers : Dict Text Entry}
    (h : PeersAll (Encodable room) peers) : Encodable g.stack (payload peers) :=
  encodable_mono hg.stack _ ((encodable_payload h.keys).mpr h)

/-- Room for values of `room` levels, and no more. -/
def tightSetting (room : Nat) : Setting := { plainSetting with stack := room + 3 }

theorem tightSetting_fits (room : Nat) : (tightSetting room).Fits room := ⟨Nat.le_refl _, rfl⟩

/-- A first contact, or another one, at an address. -/
theorem cleanCall_contact {room : Nat} {k addr : Text} (hk : Joined k) (haddr : Joined addr) :
    CleanCall room (.trust k (.str []) false [] addr) := by
  have hnil : Joined [] := joined_text ""
  refine ⟨⟨hk, hnil, haddr⟩, ?_⟩
  rintro v ⟨⟩
  exact ⟨trivial, hnil⟩

theorem Open.later (hroom : 0 < room) {x : Option Text} (h : Open room s x) :
    LaterSucceed F room s x := by
  intro g c k hg hc hk hx
  rcases run_kind F g s c with ⟨-, v, hrun⟩ | ⟨-, hnone, -⟩ |
    ⟨-, ⟨k', e, v, hk', he, hv, hnot⟩, -⟩ | ⟨-, peers, v, hrun, hrecords⟩
  · exact ⟨v, s, hrun⟩
  · cases hnone.symm.trans hk
  · cases hk.symm.trans hk'
    obtain ⟨items, hitems⟩ := h.listed k e v hx he hv
    exact absurd hitems (hnot items)
  · rw [hrun]
    have hbasic := basic_encodable hroom
    have hpeers := (hrecords.all h.written.keys hc.1 hbasic).mpr
      (.of_all hbasic h.written (fun v hv => (hc.2 v hv).1))
    exact (update_iff hg.disk peers v).mpr (encodable_stack hg hpeers)

/-- A call about an identity without a record writes all records. -/
theorem later_written (hroom : 0 < room) (hkeys : PeersAll (fun _ => True) s.peers)
    {x : Option Text} (h : LaterSucceed F room s x) : PeersAll (Encodable room) s.peers := by
  obtain ⟨k₀, hjoined, hx, hunknown⟩ := exists_unknown s.peers x
  have hclean := @cleanCall_contact room k₀ [] hjoined (joined_text "")
  obtain ⟨v, s', hok⟩ := h (tightSetting room) _ k₀ (tightSetting_fits room) hclean rfl hx
  have hkind : Call.kind s (.trust k₀ (.str []) false [] []) = .records := by
    simp [Call.kind]
  obtain ⟨peers, v', hrun, hrecords⟩ := run_records F (tightSetting room) hkind
  rw [hrun] at hok
  have hpeers := hrecords.all hkeys hclean.1 (basic_encodable hroom)
  have hkeys' := (hrecords.all hkeys hclean.1 (Q := fun _ => True) basic_true).mpr
    (.of_all basic_true hkeys (fun _ _ => trivial))
  have hleft := (hpeers.mp ((encodable_payload hkeys').mp
    ((update_iff rfl peers v').mp ⟨v, s', hok⟩))).2
  refine fun k e he => ⟨(hkeys k e he).1, fun f v hv => ⟨((hkeys k e he).2 f v hv).1, ?_⟩⟩
  have hne : k ≠ k₀ := by
    rintro rfl
    cases hunknown.symm.trans he
  have hQ := hleft k e f v he hv (fun hrep => hne hrep.1)
  simpa only [Call.left, hne, false_and, if_false] using hQ

theorem later_iff (hroom : 0 < room) (hkeys : PeersAll (fun _ => True) s.peers) {x : Option Text} :
    LaterSucceed F room s x ↔ Open room s x := by
  refine ⟨fun h => ⟨later_written hroom hkeys h, ?_⟩, Open.later hroom⟩
  intro k e v hx he hv
  by_contra hnot
  obtain ⟨addr, hne, haddr, htakes⟩ := exists_address (fun items hitems => hnot ⟨items, hitems⟩)
  have hclean := @cleanCall_contact room k addr (hkeys k e he).1 haddr
  obtain ⟨v', s', hok⟩ := h (tightSetting room) _ k (tightSetting_fits room) hclean rfl hx
  have hkind : Call.kind s (.trust k (.str []) false [] addr) = .stuck := by
    simp [Call.kind, hne, he, hv, htakes]
  rcases run_kind F (tightSetting room) s (.trust k (.str []) false [] addr) with
    ⟨hk, -⟩ | ⟨hk, -⟩ | ⟨-, -, err, peers, hrun, -⟩ | ⟨hk, -⟩
  · cases hkind.symm.trans hk
  · cases hkind.symm.trans hk
  · cases hrun.symm.trans hok
  · cases hkind.symm.trans hk

end Later

/-! ## The contract -/

section Durable

variable {F : FloatFormat} {room limit : Nat} {s : TrustStore} {g : Setting} {c : Call}

theorem durable_of_ok {v : Py} {s' : TrustStore} (hrun : run F g s c = (.ok v, s')) :
    Durable F room limit s g c ↔ InSync F limit s' := by
  constructor
  · rintro (⟨v', s'', hok, hsync⟩ | ⟨e, s'', herr, -⟩)
    · cases hrun.symm.trans hok
      exact hsync
    · cases hrun.symm.trans herr
  · exact fun hsync => .inl ⟨v, s', hrun, hsync⟩

theorem durable_of_error {e : TrustError} {s' : TrustStore} (hrun : run F g s c = (.error e, s')) :
    Durable F room limit s g c ↔ s'.peers = s.peers ∧ LaterSucceed F room s' c.subject := by
  constructor
  · rintro (⟨v, s'', hok, -⟩ | ⟨e', s'', herr, hsame⟩)
    · cases hrun.symm.trans hok
    · cases hrun.symm.trans herr
      exact hsame
  · exact fun hsame => .inr ⟨e, s', hrun, hsame⟩

/-- What is recorded can be written and read back. -/
theorem durable_records (hroom : 0 < room) (hs : PeersAll Decoded s.peers) (hg : g.Fits room)
    (hstack : g.stack ≤ limit) (hc : c.Received) {peers : Dict Text Entry} {v : Py}
    (hrun : run F g s c = update F g s peers v) (hrecords : Records s c peers) :
    Durable F room limit s g c ↔ PeersAll (Writable (g.stack - 3)) peers := by
  have hdecoded := (hrecords.all hs.keys hc.1 basic_decoded).mpr (.of_all basic_decoded hs hc.2)
  have hroom' : g.stack - 3 + 3 = g.stack := by
    have := hg.stack
    omega
  have hpayload : Encodable g.stack (payload peers) ↔ PeersAll (Encodable (g.stack - 3)) peers := by
    rw [← encodable_payload hdecoded.keys, hroom']
  cases hsave : save F g { s with peers := peers } with
  | mk result s' =>
    cases result with
    | error e =>
      have hnot : ¬Encodable g.stack (payload peers) := by
        intro henc
        obtain ⟨s'', hok⟩ := (save_iff (F := F) hg.disk { s with peers := peers }).mpr henc
        cases hsave.symm.trans hok
      have hrun' : run F g s c = (.error e, s') := by rw [hrun, update, hsave]
      have hpeers : s'.peers = peers := by
        rw [← peers_update F g s peers v, ← hrun, hrun']
      refine iff_of_false ?_ (fun h => hnot (hpayload.mpr (h.imp fun _ hv => hv.1)))
      -- an unchanged record would be one that cannot be written
      rw [durable_of_error hrun']
      rintro ⟨-, hlater⟩
      have hwritten := later_written hroom (hpeers ▸ hdecoded.keys) hlater
      exact hnot (encodable_stack hg (hpeers ▸ hwritten))
    | ok _ =>
      have hrun' : run F g s c = (.ok v, s') := by rw [hrun, update, hsave]
      have hpeers : s'.peers = peers := by
        rw [← peers_update F g s peers v, ← hrun, hrun']
      have henc := hpayload.mp ((save_iff (F := F) hg.disk { s with peers := peers }).mp ⟨s', hsave⟩)
      rw [durable_of_ok hrun']
      constructor
      · intro hsync
        exact henc.and (hpeers ▸ hsync.equal)
      · intro h
        exact inSync_save hsave hstack ((hdecoded.and h).imp fun v hv => canonical_of v hv.1 hv.2.2)

/-- **When a call is atomic and durable**, for every store that decoders
can have filled and every call with what they return. -/
theorem trust_store_durable_iff (hroom : 0 < room) (hs : PeersAll Decoded s.peers)
    (hg : g.Fits room) (hstack : g.stack ≤ limit) (hc : c.Received) :
    Durable F room limit s g c ↔ Holds F room limit s g c := by
  unfold Holds
  rcases run_kind F g s c with ⟨hkind, v, hrun⟩ | ⟨hkind, -, e, hrun⟩ |
    ⟨hkind, -, e, peers, hrun, hsame⟩ | ⟨hkind, peers, v, hrun, hrecords⟩
  · rw [hkind]
    exact durable_of_ok hrun
  · rw [hkind, durable_of_error hrun, and_iff_right rfl]
    exact later_iff hroom hs.keys
  · rw [hkind, durable_of_error hrun]
    refine (and_congr_left' hsame).trans (and_congr_right fun hrepeats => ?_)
    rw [show ({ s with peers := peers } : TrustStore) = s from by rw [hsame.mpr hrepeats]]
    exact later_iff hroom hs.keys
  · rw [hkind, durable_records hroom hs hg hstack hc hrun hrecords]
    have hstack' : 0 < g.stack - 3 := by
      have := hg.stack
      omega
    exact hrecords.all hs.keys hc.1 (basic_writable hstack')

/-- The premises are satisfiable, and both sides are: a first contact and
`mark_verified("zz", b"x")` are durable in an empty store, and a contact
with a name nested deeper than the stack allows is not. -/
theorem trust_store_durable_iff_fresh :
    Durable .spelled 1 4 fresh plainSetting
      (.trust (Py.text "ab") (.str (Py.text "laptop")) false (Py.text "tofu")
        (Py.text "10.0.0.2:7")) ∧
    Durable .spelled 1 4 fresh plainSetting (.markVerified (Py.text "zz") (.bytes [120])) ∧
    ¬Durable .spelled 1 4 fresh plainSetting
      (.trust (Py.text "ab") (.list [.list []]) false (Py.text "tofu") (Py.text "10.0.0.2:7")) := by
  have hreceived : ∀ {name : Py}, Decoded name → (Call.trust (Py.text "ab") name false
      (Py.text "tofu") (Py.text "10.0.0.2:7")).Received := by
    refine fun hname => ⟨⟨joined_text _, joined_text _, joined_text _⟩, ?_⟩
    rintro v ⟨⟩
    exact hname
  have hbytes : (Call.markVerified (Py.text "zz") (.bytes [120])).Received := by
    refine ⟨trivial, ?_⟩
    rintro v ⟨⟩
    exact ⟨fun _ h => (by cases h), fun _ h => (by cases h)⟩
  have hnested : Decoded (.list [.list []]) := decoded_list.mpr (by simp [decoded_list])
  refine ⟨(trust_store_durable_iff Nat.one_pos (peersAll_fresh _) plainSetting_fits (Nat.le_refl 4)
      (hreceived (decoded_str (joined_text _)))).mpr ⟨?_, ?_⟩,
    (trust_store_durable_iff Nat.one_pos (peersAll_fresh _) plainSetting_fits (Nat.le_refl 4)
      hbytes).mpr ⟨fun _ _ => rfl, peersAll_fresh _⟩,
    fun h => absurd (((trust_store_durable_iff Nat.one_pos (peersAll_fresh _) plainSetting_fits
      (Nat.le_refl 4) (hreceived hnested)).mp h).1 _ rfl).1 ?_⟩
  · rintro v ⟨⟩
    exact ⟨trivial, fun _ h => (by cases h)⟩
  · intro k e f v he
    simp [fresh] at he
  · simp [Json.Encodable, plainSetting, EncodableItems]

/-- A peer whose Hello has `b"x"` for a name is approved: `trust` raises,
its record stays, and the next peer cannot be recorded. -/
theorem bytes_name_poisons :
    let g := plainSetting
    let first := run .spelled g fresh
      (.trust (Py.text "ab") (.bytes [120]) false (Py.text "tofu") (Py.text "10.0.0.2:7"))
    let second := run .spelled g first.2
      (.trust (Py.text "cd") (.str (Py.text "laptop")) false (Py.text "tofu") (Py.text "10.0.0.3:7"))
    first.1 = .error (.dumps .unserialisable) ∧ first.2.isTrusted (Py.text "ab") = true ∧
      second.1 = .error (.dumps .unserialisable) := ⟨rfl, rfl, rfl⟩

end Durable

end Memnode.Peers.TrustStore
