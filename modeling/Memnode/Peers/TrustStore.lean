/-
Memnode.Peers.TrustStore — the record of accepted identities.

`trust`, `mark_verified` and `revoke` change the record in memory and
then write all of it to the file, as JSON. What they are given comes from
the network: a name is whatever the Hello of the peer said, so it may be
an object that `json.dumps` refuses, and then the record has changed
while the file has not.

What is in the records after a call is what was there before, less what
the call replaces, and the one object that comes from outside
(`Recordable`, `run_kind`). `Sound` says that all of the record survives
the file (`Clean`) and that the file reads back as the record. It is
kept by every call with clean arguments (`sound_run`).
-/
import Memnode.Config
import Memnode.Lib.JsonRoundTrip

namespace Memnode.Peers

open Lib Lib.Json

/-- What is recorded about one identity, by field name. -/
abbrev Entry := Dict Text Py

/-- `_peers`, and the text of the file if there is one. -/
structure TrustStore where
  peers : Dict Text Entry
  file : Option (List Char)

/-- What the methods raise. -/
inductive TrustError where
  /-- by `json.dumps` -/
  | dumps (e : DumpError)
  /-- by `json.loads`, apart from a `JSONDecodeError` -/
  | loads (e : Json.Error)
  /-- an `OSError` -/
  | disk
  /-- `TypeError: unhashable type` -/
  | unhashable
  /-- `addresses` is not a list -/
  | addresses
  /-- `peers` is not a dictionary -/
  | items

/-- What a call finds around it: how many levels of lists and objects
there is room for on the stack, whether the file system works, and the
time. -/
structure Setting where
  stack : Nat
  disk : Bool
  now : UInt64
  now_finite : Py.isFinite now = true

/-- The stack has room for records whose values have `room` levels, and
the file system works. -/
structure Setting.Fits (room : Nat) (g : Setting) : Prop where
  stack : room + 3 ≤ g.stack
  disk : g.disk = true

namespace Entry

def toPy (e : Entry) : Py := .dict (e.entries.map (fun f => (.str f.1, f.2)))

def field : Py.Key × Py → Option (Text × Py)
  | (.str k, v) => some (k, v)
  | (.bytes _, _) => none

/-- A decoded object; its keys are strings. -/
def ofFields (fields : List (Py.Key × Py)) : Entry := Dict.ofList (fields.filterMap field)

/-- `bool(entry.get("verified"))`. -/
def isVerified (e : Entry) : Bool := ((e.get (Py.text "verified")).map Py.truthy).getD false

/-- The record `trust` begins with. -/
def created (g : Setting) (name : Py) : Entry :=
  ((Dict.empty.set (Py.text "name") name).set (Py.text "first_seen") (.float g.now)).set
    (Py.text "addresses") (.list [])

/-- What `trust` writes in a record, before the address. -/
def seen (e : Entry) (g : Setting) (name : Py) (verified : Bool) (method : Text) : Entry :=
  let e := (e.set (Py.text "name") name).set (Py.text "last_seen") (.float g.now)
  -- verification is sticky
  let e := e.set (Py.text "verified") (.bool (isVerified e || verified))
  if verified || (e.get (Py.text "method")).isNone then e.set (Py.text "method") (.str method)
  else e

def isStr (s : Text) : Py → Bool
  | .str s' => s' = s
  | _ => false

/-- `addr in addrs` and `addrs.append(addr)`, keeping the last eight. -/
def addAddress (e : Entry) (addr : Text) : Except TrustError Entry :=
  if addr = [] then .ok e
  else
    match (e.get (Py.text "addresses")).getD (.list []) with
    | .list items =>
        if items.any (isStr addr) then .ok e
        else
          let items := items ++ [.str addr]
          .ok (e.set (Py.text "addresses") (.list (items.drop (items.length - 8))))
    -- in these two `in` is defined, but there is nothing to append to
    | .str s => if s.tails.any (addr.isPrefixOf ·) then .ok e else .error .addresses
    | .dict fields => if fields.any (fun f => f.1 = .str addr) then .ok e else .error .addresses
    | _ => .error .addresses

end Entry

namespace TrustStore

section Calls

variable (F : FloatFormat)

def payload (peers : Dict Text Entry) : Py :=
  .dict [(.str (Py.text "version"), .int Config.trustStoreVersion),
    (.str (Py.text "peers"), .dict (peers.entries.map (fun p => (.str p.1, p.2.toPy))))]

/-- `_save`: the text is built before the file is touched, and the file
is replaced as a whole. -/
def save (g : Setting) (s : TrustStore) : Except TrustError Unit × TrustStore :=
  match dumps F .indented g.stack (payload s.peers) with
  | .error e => (.error (.dumps e), s)
  | .ok t => if g.disk then (.ok (), { s with file := some t }) else (.error .disk, s)

/-- `raw.get("version") == config.TRUST_STORE_VERSION`; `2.0` is equal to `2`. -/
def isVersion : Option Py → Bool
  | some (.int i) => i = Config.trustStoreVersion
  | some (.float bits) => bits = 0x4000000000000000
  | _ => false

/-- A record of a file; what is not an object is left out. -/
def record : Py.Key × Py → Option (Text × Entry)
  | (.str k, .dict e) => some (k, Entry.ofFields e)
  | _ => none

def peersOf (fields : List (Py.Key × Py)) : Dict Text Entry :=
  Dict.ofList (fields.filterMap record)

/-- A record as the migration makes it. -/
def tofuRecord (g : Setting) (name : Text) : Entry :=
  Dict.ofList [(Py.text "name", .str name), (Py.text "first_seen", .float g.now),
    (Py.text "last_seen", .float g.now), (Py.text "verified", .bool false),
    (Py.text "method", .str (Py.text "tofu")), (Py.text "addresses", .list [])]

/-- A record of a file of the first version, which has only names. -/
def migrate (g : Setting) : Py.Key × Py → Option (Text × Entry)
  | (.str k, .str name) => some (k, tofuRecord g name)
  | _ => none

def migrated (g : Setting) (fields : List (Py.Key × Py)) : Dict Text Entry :=
  Dict.ofList (fields.filterMap (migrate g))

/-- `TrustStore(path)` and its `_load`, with room for `limit` levels in
`json.loads`. -/
def load (g : Setting) (limit : Nat) (file : Option (List Char)) : Except TrustError TrustStore :=
  match file with
  | none => .ok ⟨.empty, none⟩
  | some t =>
      if g.disk then
        match loads F limit t with
        | .error .malformed => .ok ⟨.empty, some t⟩
        | .error e => .error (.loads e)
        | .ok (.dict fields) =>
            if isVersion (Py.get fields "version") then
              match (Py.get fields "peers").getD (.dict []) with
              | .dict peers => .ok ⟨peersOf peers, some t⟩
              | _ => .error .items
            else
              match save F g ⟨migrated g fields, some t⟩ with
              | (.error e, _) => .error e
              | (.ok (), s) => .ok s
        | .ok _ => .ok ⟨.empty, some t⟩
      else .ok ⟨.empty, some t⟩

def isTrusted (s : TrustStore) (pubkey : Text) : Bool := (s.peers.get pubkey).isSome

def isVerified (s : TrustStore) (pubkey : Text) : Bool :=
  ((s.peers.get pubkey).map Entry.isVerified).getD false

/-- The record changes and is saved. -/
def update (g : Setting) (s : TrustStore) (peers : Dict Text Entry) (result : Py) :
    Except TrustError Py × TrustStore :=
  match save F g { s with peers := peers } with
  | (.error e, s) => (.error e, s)
  | (.ok (), s) => (.ok result, s)

def trust (g : Setting) (pubkey : Text) (name : Py) (verified : Bool) (method addr : Text)
    (s : TrustStore) : Except TrustError Py × TrustStore :=
  let entry := ((s.peers.get pubkey).getD (.created g name)).seen g name verified method
  match entry.addAddress addr with
  | .error e => (.error e, { s with peers := s.peers.set pubkey entry })
  | .ok entry => update F g s (s.peers.set pubkey entry) .none

def markVerified (g : Setting) (pubkey : Text) (method : Py) (s : TrustStore) :
    Except TrustError Py × TrustStore :=
  match s.peers.get pubkey with
  | none => (.ok (.bool false), s)
  | some entry =>
      let entry := (entry.set (Py.text "verified") (.bool true)).set (Py.text "method") method
      update F g s (s.peers.set pubkey entry) (.bool true)

/-- `revoke`; the key is whatever the request held. -/
def revoke (g : Setting) (pubkey : Py) (s : TrustStore) : Except TrustError Py × TrustStore :=
  match pubkey with
  | .list _ => (.error .unhashable, s)
  | .dict _ => (.error .unhashable, s)
  | .str k =>
      if s.isTrusted k then update F g s (s.peers.erase k) (.bool true) else (.ok (.bool false), s)
  | _ => (.ok (.bool false), s)

/-- The calls that change the store, with what they are given. -/
inductive Call where
  | trust (pubkey : Text) (name : Py) (verified : Bool) (method addr : Text)
  | markVerified (pubkey : Text) (method : Py)
  | revoke (pubkey : Py)

def run (g : Setting) (s : TrustStore) : Call → Except TrustError Py × TrustStore
  | .trust pubkey name verified method addr => trust F g pubkey name verified method addr s
  | .markVerified pubkey method => markVerified F g pubkey method s
  | .revoke pubkey => revoke F g pubkey s

end Calls

/-- The identity a call is about. -/
def Call.subject : Call → Option Text
  | .trust pubkey .. => some pubkey
  | .markVerified pubkey _ => some pubkey
  | .revoke (.str pubkey) => some pubkey
  | .revoke _ => none

/-- The record is changed before it is saved. -/
theorem peers_update (F : FloatFormat) (g : Setting) (s : TrustStore) (peers : Dict Text Entry)
    (result : Py) : (update F g s peers result).2.peers = peers := by
  unfold update save
  dsimp only
  cases dumps F .indented g.stack (payload peers) with
  | error e => rfl
  | ok t => cases g.disk <;> rfl

/-! ## What is in the records -/

/-- What holds of every field after an assignment. -/
theorem all_set {ν : Type} {R : Text → ν → Prop} {d : Dict Text ν} {k : Text} {v : ν} :
    (∀ f w, (d.set k v).get f = some w → R f w) ↔
      R k v ∧ ∀ f w, d.get f = some w → f ≠ k → R f w := by
  constructor
  · exact fun h => ⟨h k v (Dict.get_set_self ..),
      fun f w hw hf => h f w (by rw [Dict.get_set, if_neg hf, hw])⟩
  · rintro ⟨hk, hrest⟩ f w hw
    rw [Dict.get_set] at hw
    split at hw
    · rename_i heq
      cases hw
      rw [heq]
      exact hk
    · rename_i hne
      exact hrest f w hw hne

/-- Every field of the record, under a key that a file can hold. -/
def EntryAll (Q : Py → Prop) (e : Entry) : Prop := ∀ f v, e.get f = some v → Joined f ∧ Q v

def PeersAll (Q : Py → Prop) (peers : Dict Text Entry) : Prop :=
  ∀ k e, peers.get k = some e → Joined k ∧ EntryAll Q e

theorem EntryAll.imp {Q Q' : Py → Prop} {e : Entry} (h : EntryAll Q e) (himp : ∀ v, Q v → Q' v) :
    EntryAll Q' e := fun f v hv => ⟨(h f v hv).1, himp v (h f v hv).2⟩

theorem PeersAll.imp {Q Q' : Py → Prop} {peers : Dict Text Entry} (h : PeersAll Q peers)
    (himp : ∀ v, Q v → Q' v) : PeersAll Q' peers :=
  fun k e he => ⟨(h k e he).1, (h k e he).2.imp himp⟩

theorem PeersAll.and {Q Q' : Py → Prop} {peers : Dict Text Entry} (h : PeersAll Q peers)
    (h' : PeersAll Q' peers) : PeersAll (fun v => Q v ∧ Q' v) peers :=
  fun k e he => ⟨(h k e he).1, fun f v hv =>
    ⟨((h k e he).2 f v hv).1, ((h k e he).2 f v hv).2, ((h' k e he).2 f v hv).2⟩⟩

/-- A property of what the calls write of themselves: flags, times, texts
and lists of addresses. -/
structure Basic (Q : Py → Prop) : Prop where
  bool : ∀ b, Q (.bool b)
  time : ∀ g : Setting, Q (.float g.now)
  str : ∀ {s}, Joined s → Q (.str s)
  nil : Q (.list [])
  snoc : ∀ {items s}, Joined s → (Q (.list (items ++ [.str s])) ↔ Q (.list items))
  drop : ∀ {items} n, Q (.list items) → Q (.list (items.drop n))

/-- A property that a list has if its items do. -/
theorem Basic.ofItems {Q P : Py → Prop} (hbool : ∀ b, Q (.bool b))
    (htime : ∀ g : Setting, Q (.float g.now)) (hstr : ∀ {s}, Joined s → Q (.str s) ∧ P (.str s))
    (hlist : ∀ items, Q (.list items) ↔ ∀ v ∈ items, P v) : Basic Q where
  bool := hbool
  time := htime
  str := fun hs => (hstr hs).1
  nil := (hlist []).mpr (by simp)
  snoc := by
    intro items s hs
    rw [hlist, hlist]
    constructor
    · exact fun h v hv => h v (List.mem_append_left _ hv)
    · intro h v hv
      rcases List.mem_append.mp hv with hv | hv
      · exact h v hv
      · rw [List.mem_singleton.mp hv]
        exact (hstr hs).2
  drop := fun n h => (hlist _).mpr (fun v hv => (hlist _).mp h v (List.mem_of_mem_drop hv))

theorem Basic.and {Q Q' : Py → Prop} (h : Basic Q) (h' : Basic Q') :
    Basic (fun v => Q v ∧ Q' v) where
  bool := fun b => ⟨h.bool b, h'.bool b⟩
  time := fun g => ⟨h.time g, h'.time g⟩
  str := fun hs => ⟨h.str hs, h'.str hs⟩
  nil := ⟨h.nil, h'.nil⟩
  snoc := fun hs => and_congr (h.snoc hs) (h'.snoc hs)
  drop := fun n hl => ⟨h.drop n hl.1, h'.drop n hl.2⟩

theorem basic_encodable {room : Nat} (hroom : 0 < room) : Basic (Encodable room) :=
  .ofItems (P := Encodable (room - 1)) (fun _ => trivial) (fun _ => trivial)
    (fun _ => ⟨trivial, trivial⟩)
    (fun _ => (and_iff_right hroom).trans encodableItems_iff)

theorem basic_canonical : Basic Canonical :=
  .ofItems (fun _ => trivial) (fun g => Py.isNaN_eq_false g.now_finite) (fun hs => ⟨hs, hs⟩)
    (fun _ => canonicalItems_iff)

/-- What is left of a list of addresses when one more is added. -/
def trimmed (addr : Text) : Py → Py
  | .list items =>
      if addr = [] ∨ items.any (Entry.isStr addr) = true then .list items
      else .list (items.drop (items.length - 7))
  | v => v

theorem Basic.trimmed {Q : Py → Prop} (h : Basic Q) {v : Py} (hv : Q v) (addr : Text) :
    Q (trimmed addr v) := by
  unfold TrustStore.trimmed
  split
  · split
    · exact hv
    · exact h.drop _ hv
  · exact hv

/-- An assignment to a field that the source names. -/
theorem get_set_text (e : Entry) (field field' : String) (v : Py) :
    (e.set (Py.text field) v).get (Py.text field')
      = if field' = field then some v else e.get (Py.text field') := by
  simp only [Dict.get_set, Py.text_inj]

/-- The fields of a record that `trust` has seen. -/
theorem get_seen (e : Entry) (g : Setting) (name : Py) (verified : Bool) (method f : Text) :
    (e.seen g name verified method).get f
      = if f = Py.text "method" ∧ (verified = true ∨ e.get (Py.text "method") = none) then
          some (.str method)
        else if f = Py.text "verified" then some (.bool (e.isVerified || verified))
        else if f = Py.text "last_seen" then some (.float g.now)
        else if f = Py.text "name" then some name
        else e.get f := by
  have hsame : ∀ v w, Entry.isVerified ((e.set (Py.text "name") v).set (Py.text "last_seen") w)
      = e.isVerified := by
    intro v w
    simp [Entry.isVerified, get_set_text]
  have hmethod : ∀ u v w, (((e.set (Py.text "name") u).set (Py.text "last_seen") v).set
      (Py.text "verified") w).get (Py.text "method") = e.get (Py.text "method") := by
    intro u v w
    simp [get_set_text]
  unfold Entry.seen
  dsimp only
  rw [hsame, hmethod]
  cases verified <;> cases e.get (Py.text "method") <;> simp [Dict.get_set]

/-- The fields of an existing record that `trust` writes anew. -/
def Overwritten (verified : Bool) (f : Text) : Prop :=
  f = Py.text "name" ∨ f = Py.text "last_seen" ∨ f = Py.text "verified" ∨
    f = Py.text "method" ∧ verified = true

theorem all_seen {R : Text → Py → Prop} {e : Entry} {g : Setting} {name : Py} {verified : Bool}
    {method : Text} (hmethod : R (Py.text "method") (.str method))
    (hverified : ∀ b, R (Py.text "verified") (.bool b))
    (hnow : R (Py.text "last_seen") (.float g.now)) :
    (∀ f v, (e.seen g name verified method).get f = some v → R f v) ↔
      R (Py.text "name") name ∧ ∀ f v, e.get f = some v → ¬Overwritten verified f → R f v := by
  constructor
  · intro h
    refine ⟨h _ name ?_, fun f v hv hnot => h f v ?_⟩
    · simp [get_seen, Py.text_inj]
    · simp only [Overwritten, not_or, not_and] at hnot
      obtain ⟨hname, hseen, hverified, hmethod⟩ := hnot
      rw [get_seen, if_neg, if_neg hverified, if_neg hseen, if_neg hname, hv]
      rintro ⟨rfl, hver | hnone⟩
      · exact hmethod rfl hver
      · rw [hv] at hnone
        cases hnone
  · rintro ⟨hname, hrest⟩ f v hv
    rw [get_seen] at hv
    split at hv
    · rename_i hcond
      cases hv
      rw [hcond.1]
      exact hmethod
    · rename_i hnot
      split at hv
      · rename_i heq
        cases hv
        rw [heq]
        exact hverified _
      · split at hv
        · rename_i heq
          cases hv
          rw [heq]
          exact hnow
        · split at hv
          · rename_i heq
            cases hv
            rw [heq]
            exact hname
          · refine hrest f v hv ?_
            rintro (h | h | h | ⟨h, hver⟩)
            · contradiction
            · contradiction
            · contradiction
            · exact hnot ⟨h, .inl hver⟩

theorem addAddress_cases {e e' : Entry} {addr : Text} (h : e.addAddress addr = .ok e') :
    (e' = e ∧ ∀ v, e.get (Py.text "addresses") = some v → trimmed addr v = v) ∨
    ∃ items, (e.get (Py.text "addresses")).getD (.list []) = .list items ∧
      trimmed addr (.list items) = .list (items.drop (items.length - 7)) ∧
      e' = e.set (Py.text "addresses") (.list (items.drop (items.length - 7) ++ [.str addr])) := by
  unfold Entry.addAddress at h
  split at h
  · rename_i hempty
    cases h
    refine .inl ⟨rfl, fun v _ => ?_⟩
    cases v <;> simp [trimmed, hempty]
  · rename_i hne
    cases hget : e.get (Py.text "addresses") with
    | none =>
      rw [hget] at h
      cases h
      exact .inr ⟨[], rfl, by simp [trimmed], rfl⟩
    | some v =>
      rw [hget] at h
      have hsame : ∀ w, (∀ items, w ≠ Py.list items) → trimmed addr w = w := by
        intro w hw
        cases w with
        | list items => exact absurd rfl (hw items)
        | _ => rfl
      cases v with
      | list items =>
        simp only [Option.getD_some] at h
        split at h
        · rename_i hany
          cases h
          refine .inl ⟨rfl, ?_⟩
          rintro v ⟨⟩
          exact if_pos (.inr hany)
        · rename_i hany
          cases h
          refine .inr ⟨items, rfl, by simp [trimmed, hne, hany], ?_⟩
          have hlength : (items ++ [Py.str addr]).length - 8 = items.length - 7 := by simp
          rw [hlength, List.drop_append_of_le_length (by omega)]
      | str s =>
        simp only [Option.getD_some] at h
        split at h
        · cases h
          exact .inl ⟨rfl, by simp [hsame]⟩
        · cases h
      | dict fields =>
        simp only [Option.getD_some] at h
        split at h
        · cases h
          exact .inl ⟨rfl, by simp [hsame]⟩
        · cases h
      | _ => cases h

section Recording

variable {Q : Py → Prop} (hQ : Basic Q)

include hQ

theorem entryAll_addAddress {e e' : Entry} {addr : Text} (haddr : Joined addr)
    (h : e.addAddress addr = .ok e') :
    EntryAll Q e' ↔ ∀ f v, e.get f = some v →
      Joined f ∧ Q (if f = Py.text "addresses" then trimmed addr v else v) := by
  rcases addAddress_cases h with ⟨rfl, hsame⟩ | ⟨items, hitems, htrim, rfl⟩
  · refine forall₃_congr fun f v hv => ?_
    split
    · rename_i heq
      rw [hsame v (heq ▸ hv)]
    · rfl
  · refine (all_set (R := fun f v => Joined f ∧ Q v)).trans ⟨?_, fun hall => ⟨?_, ?_⟩⟩
    · rintro ⟨⟨-, hlist⟩, hrest⟩ f v hv
      split
      · rename_i heq
        rw [heq] at hv ⊢
        rw [hv, Option.getD_some] at hitems
        rw [hitems, htrim]
        exact ⟨joined_text _, (hQ.snoc haddr).mp hlist⟩
      · rename_i hne
        exact hrest f v hv hne
    · refine ⟨joined_text _, (hQ.snoc haddr).mpr ?_⟩
      cases hget : e.get (Py.text "addresses") with
      | none =>
        rw [hget] at hitems
        cases hitems
        exact hQ.nil
      | some v =>
        have hv := (hall _ v hget).2
        rw [hget, Option.getD_some] at hitems
        rwa [if_pos rfl, hitems, htrim] at hv
    · intro f v hv hne
      have hv' := hall f v hv
      rwa [if_neg hne] at hv'

/-- The record that `trust` leaves: the name, and what it does not write
anew. -/
theorem entryAll_trust {old : Option Entry} {e' : Entry} {g : Setting} {name : Py}
    {verified : Bool} {method addr : Text} (hmethod : Joined method) (haddr : Joined addr)
    (h : ((old.getD (.created g name)).seen g name verified method).addAddress addr = .ok e') :
    EntryAll Q e' ↔ Q name ∧ ∀ e, old = some e → ∀ f v, e.get f = some v →
      ¬Overwritten verified f →
      Joined f ∧ Q (if f = Py.text "addresses" then trimmed addr v else v) := by
  have hne : Py.text "method" ≠ Py.text "addresses" ∧ Py.text "verified" ≠ Py.text "addresses" ∧
      Py.text "last_seen" ≠ Py.text "addresses" ∧ Py.text "name" ≠ Py.text "addresses" ∧
      Py.text "first_seen" ≠ Py.text "addresses" := by decide
  rw [entryAll_addAddress hQ haddr h, all_seen]
  · rw [if_neg hne.2.2.2.1]
    refine and_congr (and_iff_right (joined_text _)) ?_
    cases old with
    | some e => simp
    | none =>
      refine iff_of_true ?_ (by simp)
      intro f v hv _
      simp only [Option.getD_none, Entry.created, Dict.get_set] at hv
      split at hv
      · rename_i heq
        cases hv
        rw [heq, if_pos rfl]
        refine ⟨joined_text _, ?_⟩
        simp only [trimmed]
        split
        · exact hQ.nil
        · exact hQ.drop _ hQ.nil
      · rename_i haddresses
        rw [if_neg haddresses]
        split at hv
        · rename_i heq
          cases hv
          rw [heq]
          exact ⟨joined_text _, hQ.time g⟩
        · -- the name is written anew
          rename_i hover _
          split at hv
          · rename_i heq
            exact absurd (.inl heq) hover
          · cases hv
  · rw [if_neg hne.1]
    exact ⟨joined_text _, hQ.str hmethod⟩
  · intro b
    rw [if_neg hne.2.1]
    exact ⟨joined_text _, hQ.bool b⟩
  · rw [if_neg hne.2.2.1]
    exact ⟨joined_text _, hQ.time g⟩

end Recording

/-- The object from outside that a call records. -/
def Call.added : Call → Option Py
  | .trust _ name .. => some name
  | .markVerified _ method => some method
  | .revoke _ => none

/-- The call writes a field of a record anew, or removes it. -/
def Call.replaces : Call → Text → Text → Prop
  | .trust pubkey _ verified _ _, k, f => k = pubkey ∧ Overwritten verified f
  | .markVerified pubkey _, k, f => k = pubkey ∧ (f = Py.text "verified" ∨ f = Py.text "method")
  | .revoke (.str pubkey), k, _ => k = pubkey
  | .revoke _, _, _ => False

/-- What is left of a field that is not replaced. -/
def Call.left : Call → Text → Text → Py → Py
  | .trust pubkey _ _ _ addr, k, f, v =>
      if k = pubkey ∧ f = Py.text "addresses" then trimmed addr v else v
  | _, _, _, v => v

/-- What the call records, and what it leaves in the records. -/
def Recordable (Q : Py → Prop) (s : TrustStore) (c : Call) : Prop :=
  (∀ v, c.added = some v → Q v) ∧
    ∀ k e f v, s.peers.get k = some e → e.get f = some v → ¬c.replaces k f → Q (c.left k f v)

/-- The texts among the arguments can be held by a file. -/
def Call.Texts : Call → Prop
  | .trust pubkey _ _ method addr => Joined pubkey ∧ Joined method ∧ Joined addr
  | _ => True

/-- Every address list is one. -/
def Listed (peers : Dict Text Entry) : Prop :=
  ∀ k e v, peers.get k = some e → e.get (Py.text "addresses") = some v → ∃ items, v = .list items

/-- The records after a call that has something to record. -/
structure Records (s : TrustStore) (c : Call) (peers : Dict Text Entry) : Prop where
  all : PeersAll (fun _ => True) s.peers → c.Texts →
    ∀ {Q : Py → Prop}, Basic Q → (PeersAll Q peers ↔ Recordable Q s c)
  listed : Listed s.peers → Listed peers

theorem Listed.set {peers : Dict Text Entry} (h : Listed peers) {k : Text} {e : Entry}
    (he : ∀ v, e.get (Py.text "addresses") = some v → ∃ items, v = .list items) :
    Listed (peers.set k e) := by
  intro k' e' v hget hv
  rw [Dict.get_set] at hget
  split at hget
  · cases hget
    exact he v hv
  · exact h k' e' v hget hv

section Peers

variable {s : TrustStore} {Q : Py → Prop}

theorem peersAll_set {peers : Dict Text Entry} {k : Text} {e : Entry} :
    PeersAll Q (peers.set k e) ↔ (Joined k ∧ EntryAll Q e) ∧
      ∀ k' e', peers.get k' = some e' → k' ≠ k → Joined k' ∧ EntryAll Q e' :=
  all_set (R := fun k e => Joined k ∧ EntryAll Q e)

theorem addresses_seen (e : Entry) (g : Setting) (name : Py) (verified : Bool) (method : Text) :
    (e.seen g name verified method).get (Py.text "addresses") = e.get (Py.text "addresses") := by
  simp [get_seen, Py.text_inj]

theorem records_trust {g : Setting} {pubkey : Text} {name : Py} {verified : Bool}
    {method addr : Text} {e' : Entry}
    (h : (((s.peers.get pubkey).getD (.created g name)).seen g name verified method).addAddress addr
      = .ok e') :
    Records s (.trust pubkey name verified method addr) (s.peers.set pubkey e') := by
  constructor
  · rintro hs ⟨hpubkey, hmethod, haddr⟩ Q hQ
    rw [peersAll_set, entryAll_trust hQ hmethod haddr h]
    constructor
    · rintro ⟨⟨-, hname, hold⟩, hothers⟩
      refine ⟨?_, fun k e f v he hv hnot => ?_⟩
      · rintro v ⟨⟩
        exact hname
      · by_cases hk : k = pubkey
        · subst hk
          have hQv := (hold e he f v hv (fun hover => hnot ⟨rfl, hover⟩)).2
          simpa only [Call.left, true_and] using hQv
        · simp only [Call.left, hk, false_and, if_false]
          exact ((hothers k e he hk).2 f v hv).2
    · rintro ⟨hadded, hleft⟩
      refine ⟨⟨hpubkey, hadded name rfl, fun e he f v hv hnot => ⟨((hs _ e he).2 f v hv).1, ?_⟩⟩,
        fun k e he hk => ⟨(hs k e he).1, fun f v hv => ⟨((hs k e he).2 f v hv).1, ?_⟩⟩⟩
      · have hQv := hleft pubkey e f v he hv (fun hrep => hnot hrep.2)
        simpa only [Call.left, true_and] using hQv
      · have hQv := hleft k e f v he hv (fun hrep => hk hrep.1)
        simpa only [Call.left, hk, false_and, if_false] using hQv
  · intro hlisted
    refine hlisted.set (fun v hv => ?_)
    rcases addAddress_cases h with ⟨rfl, -⟩ | ⟨items, -, -, rfl⟩
    · rw [addresses_seen] at hv
      cases hget : s.peers.get pubkey with
      | none =>
        rw [hget] at hv
        cases hv
        exact ⟨[], rfl⟩
      | some e =>
        rw [hget] at hv
        exact hlisted pubkey e v hget hv
    · rw [Dict.get_set_self] at hv
      cases hv
      exact ⟨_, rfl⟩

theorem records_markVerified {pubkey : Text} {method : Py} {e : Entry}
    (he : s.peers.get pubkey = some e) :
    Records s (.markVerified pubkey method) (s.peers.set pubkey
      ((e.set (Py.text "verified") (.bool true)).set (Py.text "method") method)) := by
  have hne : Py.text "addresses" ≠ Py.text "method" ∧ Py.text "addresses" ≠ Py.text "verified" := by
    decide
  have hmethod : Py.text "verified" ≠ Py.text "method" := by decide
  constructor
  · intro hs _ Q hQ
    have hentry : EntryAll Q ((e.set (Py.text "verified") (.bool true)).set (Py.text "method") method)
        ↔ Q method ∧ ∀ f v, e.get f = some v → f ≠ Py.text "verified" → f ≠ Py.text "method" →
          Joined f ∧ Q v := by
      unfold EntryAll
      rw [all_set, all_set]
      refine and_congr (and_iff_right (joined_text _)) (and_iff_right fun _ => ?_)
      exact ⟨joined_text _, hQ.bool true⟩
    rw [peersAll_set, hentry]
    constructor
    · rintro ⟨⟨-, hm, hold⟩, hothers⟩
      refine ⟨?_, fun k e' f v he' hv hnot => ?_⟩
      · rintro v ⟨⟩
        exact hm
      · by_cases hk : k = pubkey
        · subst hk
          cases he.symm.trans he'
          exact (hold f v hv (fun h => hnot ⟨rfl, .inl h⟩) (fun h => hnot ⟨rfl, .inr h⟩)).2
        · exact ((hothers k e' he' hk).2 f v hv).2
    · rintro ⟨hadded, hleft⟩
      refine ⟨⟨(hs _ e he).1, hadded method rfl, fun f v hv hver hmeth =>
        ⟨((hs _ e he).2 f v hv).1, hleft pubkey e f v he hv ?_⟩⟩,
        fun k e' he' hk => ⟨(hs k e' he').1, fun f v hv => ⟨((hs k e' he').2 f v hv).1,
          hleft k e' f v he' hv (fun hrep => hk hrep.1)⟩⟩⟩
      rintro ⟨-, h | h⟩
      · exact hver h
      · exact hmeth h
  · intro hlisted
    refine hlisted.set (fun v hv => ?_)
    rw [Dict.get_set, if_neg hne.1, Dict.get_set, if_neg hne.2] at hv
    exact hlisted pubkey e v he hv

theorem records_revoke (s : TrustStore) (k : Text) :
    Records s (.revoke (.str k)) (s.peers.erase k) := by
  have hget : ∀ {k' e'}, (s.peers.erase k).get k' = some e' ↔ k' ≠ k ∧ s.peers.get k' = some e' := by
    intro k' e'
    rw [Dict.get_erase]
    split <;> simp_all
  constructor
  · intro hs _ Q _
    constructor
    · intro hall
      refine ⟨by simp [Call.added], fun k' e f v he hv hnot => ?_⟩
      exact ((hall k' e (hget.mpr ⟨hnot, he⟩)).2 f v hv).2
    · rintro ⟨-, hleft⟩ k' e he
      obtain ⟨hk, he⟩ := hget.mp he
      exact ⟨(hs k' e he).1, fun f v hv => ⟨((hs k' e he).2 f v hv).1, hleft k' e f v he hv hk⟩⟩
  · exact fun hlisted k' e v he hv => hlisted k' e v (hget.mp he).2 hv

end Peers

/-- Records that all have the property, and nothing else recorded. -/
theorem Recordable.of_all {Q : Py → Prop} (hQ : Basic Q) {s : TrustStore} (hs : PeersAll Q s.peers)
    {c : Call} (hc : ∀ v, c.added = some v → Q v) : Recordable Q s c := by
  refine ⟨hc, fun k e f v he hv _ => ?_⟩
  have hQv := ((hs k e he).2 f v hv).2
  unfold Call.left
  split
  · split
    · exact hQ.trimmed hQv _
    · exact hQv
  · exact hQv

/-! ## What a call comes to -/

/-- A call has nothing to record, is refused for its key, stops at the
address, or has something to record. -/
inductive Kind where
  | idle
  | refused
  | stuck
  | records

/-- `addrs` holds the address, or can be appended to. -/
def takesAddress (addr : Text) : Py → Bool
  | .list _ => true
  | .str s => s.tails.any (addr.isPrefixOf ·)
  | .dict fields => fields.any (fun f => f.1 = .str addr)
  | _ => false

def Call.kind (s : TrustStore) : Call → Kind
  | .trust pubkey _ _ _ addr =>
      if addr = [] ∨ ((s.peers.get pubkey).bind (·.get (Py.text "addresses"))).all (takesAddress addr)
      then .records else .stuck
  | .markVerified pubkey _ => if s.isTrusted pubkey then .records else .idle
  | .revoke (.str pubkey) => if s.isTrusted pubkey then .records else .idle
  | .revoke (.list _) => .refused
  | .revoke (.dict _) => .refused
  | .revoke _ => .idle

theorem addAddress_ok_iff (e : Entry) (addr : Text) :
    (∃ e', e.addAddress addr = .ok e') ↔
      addr = [] ∨ (e.get (Py.text "addresses")).all (takesAddress addr) = true := by
  unfold Entry.addAddress
  by_cases hempty : addr = []
  · simp [hempty]
  · simp only [hempty, if_false, false_or]
    cases e.get (Py.text "addresses") with
    | none => simp
    | some v =>
      cases v with
      | list items =>
        simp only [Option.getD_some]
        split <;> simp [takesAddress]
      | str s =>
        simp only [Option.getD_some, takesAddress, Option.all_some]
        split <;> simp_all
      | dict fields =>
        simp only [Option.getD_some, takesAddress, Option.all_some]
        split <;> simp_all
      | _ => simp [takesAddress]

/-- The record already says what `trust` writes in it before the address. -/
def Call.Repeats (g : Setting) (s : TrustStore) : Call → Prop
  | .trust pubkey name verified method _ => ∃ e, s.peers.get pubkey = some e ∧
      e.get (Py.text "name") = some name ∧ e.get (Py.text "last_seen") = some (.float g.now) ∧
      e.get (Py.text "verified") = some (.bool (e.isVerified || verified)) ∧
      (verified = true ∨ e.get (Py.text "method") = none →
        e.get (Py.text "method") = some (.str method))
  | _ => False

theorem seen_eq_self (e : Entry) (g : Setting) (name : Py) (verified : Bool) (method : Text) :
    e.seen g name verified method = e ↔
      e.get (Py.text "name") = some name ∧ e.get (Py.text "last_seen") = some (.float g.now) ∧
      e.get (Py.text "verified") = some (.bool (e.isVerified || verified)) ∧
      (verified = true ∨ e.get (Py.text "method") = none →
        e.get (Py.text "method") = some (.str method)) := by
  constructor
  · intro h
    have hget := fun f => (congrArg (fun e' => Dict.get e' f) h).symm.trans
      (get_seen e g name verified method f)
    refine ⟨(hget _).trans ?_, (hget _).trans ?_, (hget _).trans ?_, fun hcond => (hget _).trans ?_⟩
    · simp [Py.text_inj]
    · simp [Py.text_inj]
    · simp [Py.text_inj]
    · exact if_pos ⟨rfl, hcond⟩
  · rintro ⟨hname, hseen, hverified, hmethod⟩
    unfold Entry.seen
    simp only [Dict.set_of_get hname, Dict.set_of_get hseen, Dict.set_of_get hverified]
    split
    · rename_i hcond
      exact Dict.set_of_get (hmethod (by simpa using hcond))
    · rfl

/-- The addresses of a record that cannot take another are no list. -/
theorem exists_addresses {peers : Dict Text Entry} {pubkey addr : Text}
    (h : ((peers.get pubkey).bind (·.get (Py.text "addresses"))).all (takesAddress addr) = false) :
    ∃ e v, peers.get pubkey = some e ∧ e.get (Py.text "addresses") = some v ∧
      ∀ items, v ≠ .list items := by
  cases hget : peers.get pubkey with
  | none => simp [hget] at h
  | some e =>
    cases hv : e.get (Py.text "addresses") with
    | none => simp [hget, hv] at h
    | some v =>
      refine ⟨e, v, rfl, hv, ?_⟩
      rintro items rfl
      simp [hget, hv, takesAddress] at h

theorem set_seen_eq {g : Setting} {s : TrustStore} {pubkey : Text} {e : Entry}
    (he : s.peers.get pubkey = some e) (name : Py) (verified : Bool) (method addr : Text) :
    s.peers.set pubkey (e.seen g name verified method) = s.peers ↔
      (Call.trust pubkey name verified method addr).Repeats g s := by
  constructor
  · intro heq
    have hsame := congrArg (fun d => Dict.get d pubkey) heq
    simp only [Dict.get_set_self, he, Option.some.injEq] at hsame
    exact ⟨e, he, (seen_eq_self ..).mp hsame⟩
  · rintro ⟨e', he', hfields⟩
    cases he.symm.trans he'
    rw [(seen_eq_self e g name verified method).mpr hfields]
    exact Dict.set_of_get he

/-- Every call is of one of the four kinds. -/
theorem run_kind (F : FloatFormat) (g : Setting) (s : TrustStore) (c : Call) :
    (c.kind s = .idle ∧ ∃ v, run F g s c = (.ok v, s)) ∨
    (c.kind s = .refused ∧ c.subject = none ∧ ∃ e, run F g s c = (.error e, s)) ∨
    (c.kind s = .stuck ∧
      (∃ k e v, c.subject = some k ∧ s.peers.get k = some e ∧
        e.get (Py.text "addresses") = some v ∧ ∀ items, v ≠ .list items) ∧
      ∃ e peers, run F g s c = (.error e, { s with peers := peers }) ∧
        (peers = s.peers ↔ c.Repeats g s)) ∨
    (c.kind s = .records ∧
      ∃ peers v, run F g s c = update F g s peers v ∧ Records s c peers) := by
  cases c with
  | trust pubkey name verified method addr =>
    let old := (s.peers.get pubkey).getD (.created g name)
    -- a new record has an empty list of addresses
    have hold : (∃ e', (old.seen g name verified method).addAddress addr = .ok e') ↔
        (addr = [] ∨ ((s.peers.get pubkey).bind (·.get (Py.text "addresses"))).all
          (takesAddress addr) = true) := by
      rw [addAddress_ok_iff, addresses_seen]
      cases hget : s.peers.get pubkey with
      | none => simp [old, hget, Entry.created, Dict.get_set_self, takesAddress]
      | some e => simp [old, hget]
    cases hres : (old.seen g name verified method).addAddress addr with
    | ok e' =>
      exact .inr (.inr (.inr ⟨if_pos (hold.mp ⟨e', hres⟩), _, .none,
        by simp only [run, trust, old, hres], records_trust hres⟩))
    | error err =>
      have hnot := fun h => (by simpa [hres] using hold.mpr h : False)
      obtain ⟨e, v, he, hv, hlist⟩ := @exists_addresses s.peers pubkey addr
        (Bool.eq_false_iff.mpr fun h => hnot (.inr h))
      refine .inr (.inr (.inl ⟨if_neg hnot, ⟨pubkey, e, v, rfl, he, hv, hlist⟩, err,
        s.peers.set pubkey (e.seen g name verified method), ?_, set_seen_eq he ..⟩))
      simp only [old, he, Option.getD_some] at hres
      simp only [run, trust, he, Option.getD_some, hres]
  | markVerified pubkey method =>
    cases hget : s.peers.get pubkey with
    | none =>
      exact .inl ⟨by simp [Call.kind, isTrusted, hget], .bool false,
        by simp only [run, markVerified, hget]⟩
    | some e =>
      exact .inr (.inr (.inr ⟨by simp [Call.kind, isTrusted, hget], _, .bool true,
        by simp only [run, markVerified, hget], records_markVerified hget⟩))
  | revoke pubkey =>
    cases pubkey with
    | list items => exact .inr (.inl ⟨rfl, rfl, _, rfl⟩)
    | dict fields => exact .inr (.inl ⟨rfl, rfl, _, rfl⟩)
    | str k =>
      by_cases hk : s.isTrusted k = true
      · exact .inr (.inr (.inr ⟨if_pos hk, _, .bool true, by simp only [run, revoke, if_pos hk],
          records_revoke s k⟩))
      · exact .inl ⟨if_neg hk, .bool false, by simp only [run, revoke, if_neg hk]⟩
    | _ => exact .inl ⟨rfl, _, rfl⟩

theorem run_records (F : FloatFormat) (g : Setting) {s : TrustStore} {c : Call}
    (h : c.kind s = .records) :
    ∃ peers v, run F g s c = update F g s peers v ∧ Records s c peers := by
  rcases run_kind F g s c with ⟨hkind, -⟩ | ⟨hkind, -⟩ | ⟨hkind, -⟩ | ⟨-, hrun⟩
  · cases h.symm.trans hkind
  · cases h.symm.trans hkind
  · cases h.symm.trans hkind
  · exact hrun

/-! ## The file -/

theorem encodable_payload {room : Nat} {peers : Dict Text Entry}
    (hkeys : PeersAll (fun _ => True) peers) :
    Encodable (room + 3) (payload peers) ↔ PeersAll (Encodable room) peers := by
  have hversion : Encodable (room + 2) (.int Config.trustStoreVersion) := by
    rw [Json.Encodable]
    decide
  have hentry : ∀ e : Entry, Encodable (room + 1) e.toPy ↔ ∀ f v, e.get f = some v →
      Encodable room v := by
    intro e
    simp only [Entry.toPy, Json.Encodable, Nat.succ_pos, true_and, encodableFields_iff,
      List.forall_mem_map, Py.Key.str.injEq, exists_eq', Nat.add_sub_cancel]
    exact ⟨fun h f v hv => h _ ((e.get_eq_some_iff f v).mp hv),
      fun h f hf => h f.1 f.2 ((e.get_eq_some_iff f.1 f.2).mpr hf)⟩
  have hpeers : Encodable (room + 2) (.dict (peers.entries.map (fun p => (.str p.1, p.2.toPy)))) ↔
      ∀ k e, peers.get k = some e → Encodable (room + 1) e.toPy := by
    simp only [Json.Encodable, Nat.succ_pos, true_and, encodableFields_iff,
      List.forall_mem_map, Py.Key.str.injEq, exists_eq']
    exact ⟨fun h k e he => h _ ((peers.get_eq_some_iff k e).mp he),
      fun h p hp => h p.1 p.2 ((peers.get_eq_some_iff p.1 p.2).mpr hp)⟩
  have hpayload : Encodable (room + 3) (payload peers) ↔
      Encodable (room + 2) (.dict (peers.entries.map (fun p => (.str p.1, p.2.toPy)))) := by
    constructor
    · exact fun h => h.2.2.2.2.1
    · exact fun h => ⟨Nat.succ_pos _, ⟨_, rfl⟩, hversion, ⟨_, rfl⟩, h, trivial⟩
  rw [hpayload, hpeers]
  constructor
  · exact fun h k e he => ⟨(hkeys k e he).1, fun f v hv =>
      ⟨((hkeys k e he).2 f v hv).1, (hentry e).mp (h k e he) f v hv⟩⟩
  · exact fun h k e he => (hentry e).mpr (fun f v hv => ((h k e he).2 f v hv).2)

/-- A dictionary with string keys is read back if its values are. -/
theorem canonical_dict {α : Type} {es : List (Text × α)} {f : α → Py}
    (hnd : (es.map Prod.fst).Nodup) (h : ∀ p ∈ es, Joined p.1 ∧ Canonical (f p.2)) :
    Canonical (.dict (es.map (fun p => (.str p.1, f p.2)))) := by
  refine ⟨?_, canonicalFields_iff.mpr ?_⟩
  · have hkeys : (es.map (fun p => (Py.Key.str p.1, f p.2))).map Prod.fst
        = (es.map Prod.fst).map Py.Key.str := by simp
    rw [hkeys, List.nodup_map_iff (fun _ _ heq => Py.Key.str.inj heq)]
    exact hnd
  · intro q hq
    obtain ⟨p, hp, rfl⟩ := List.mem_map.mp hq
    refine ⟨?_, (h p hp).2⟩
    rintro s ⟨⟩
    exact (h p hp).1

theorem canonical_payload {peers : Dict Text Entry} (h : PeersAll Canonical peers) :
    Canonical (payload peers) := by
  have hentry : ∀ p ∈ peers.entries, Joined p.1 ∧ Canonical p.2.toPy := by
    intro p hp
    obtain ⟨hk, he⟩ := h p.1 p.2 ((peers.get_eq_some_iff p.1 p.2).mpr hp)
    exact ⟨hk, canonical_dict (f := fun v => v) p.2.nodup
      (fun f hf => he f.1 f.2 ((p.2.get_eq_some_iff f.1 f.2).mpr hf))⟩
  have hfields : ∀ p ∈ [(Py.text "version", Py.int Config.trustStoreVersion),
      (Py.text "peers", .dict (peers.entries.map (fun p => (.str p.1, p.2.toPy))))],
      Joined p.1 ∧ Canonical p.2 := by
    intro p hp
    rcases List.mem_cons.mp hp with rfl | hp
    · exact ⟨joined_text _, trivial⟩
    · rw [List.mem_singleton.mp hp]
      exact ⟨joined_text _, canonical_dict peers.nodup hentry⟩
  exact canonical_dict (f := fun v => v) (by simp; decide) hfields

theorem ofFields_toPy (e : Entry) :
    Entry.ofFields (e.entries.map (fun f => (.str f.1, f.2))) = e := by
  have hfields : (e.entries.map (fun f => (Py.Key.str f.1, f.2))).filterMap Entry.field
      = e.entries := by
    rw [List.filterMap_map]
    exact List.filterMap_some
  rw [Entry.ofFields, hfields, Dict.ofList_of_nodup e.nodup]

theorem peersOf_payload (peers : Dict Text Entry) :
    peersOf (peers.entries.map (fun p => (.str p.1, p.2.toPy))) = peers := by
  have hpeers : (peers.entries.map (fun p => (Py.Key.str p.1, p.2.toPy))).filterMap record
      = peers.entries := by
    have hrecord : record ∘ (fun p : Text × Entry => (Py.Key.str p.1, p.2.toPy)) = some := by
      funext p
      simp only [Function.comp, Entry.toPy, record, ofFields_toPy]
    rw [List.filterMap_map, hrecord, List.filterMap_some]
  rw [peersOf, hpeers, Dict.ofList_of_nodup peers.nodup]

/-- An object that is written in `room` levels and read back as itself. -/
def Clean (room : Nat) (v : Py) : Prop := Encodable room v ∧ Canonical v

theorem basic_clean {room : Nat} (hroom : 0 < room) : Basic (Clean room) :=
  (basic_encodable hroom).and basic_canonical

def CleanCall (room : Nat) (c : Call) : Prop := c.Texts ∧ ∀ v, c.added = some v → Clean room v

section Sound

variable (F : FloatFormat) (room limit : Nat)

/-- The file reads back as the store, and what it reads is equal to it. -/
structure InSync (s : TrustStore) : Prop where
  reload : ∀ g, g.disk = true → load F g limit s.file = .ok s
  equal : PeersAll Py.NanFree s.peers

/-- Everything recorded is clean, and it is what the file says. -/
structure Sound (s : TrustStore) : Prop where
  clean : PeersAll (Clean room) s.peers
  listed : Listed s.peers
  sync : InSync F limit s

variable {F room limit}

/-- A text with the records of a store reads back as the store. -/
theorem load_dumps {g : Setting} (hdisk : g.disk = true) {depth : Nat} {peers : Dict Text Entry}
    {t : List Char} (hcanonical : PeersAll Canonical peers) (hlimit : Encodable limit (payload peers))
    (ht : dumps F .indented depth (payload peers) = .ok t) :
    load F g limit (some t) = .ok ⟨peers, some t⟩ := by
  have hloads := loads_dumps F .indented depth (canonical_payload hcanonical) hlimit ht
  have hversion : ∀ v v', Py.get [(.str (Py.text "version"), v), (.str (Py.text "peers"), v')]
      "version" = some v := fun _ _ => rfl
  have hpeers : ∀ v v', Py.get [(.str (Py.text "version"), v), (.str (Py.text "peers"), v')]
      "peers" = some v' := fun _ _ => rfl
  simp only [load, hdisk, if_true, hloads, payload, hversion, hpeers, isVersion, decide_true,
    Option.getD_some, peersOf_payload]

theorem save_ok {g : Setting} {s s' : TrustStore} (h : save F g s = (.ok (), s')) :
    ∃ t, dumps F .indented g.stack (payload s.peers) = .ok t ∧ s' = { s with file := some t } := by
  unfold save at h
  split at h
  · cases h
  · rename_i t ht
    split at h
    · cases h
      exact ⟨t, ht, rfl⟩
    · cases h

theorem save_iff {g : Setting} (hdisk : g.disk = true) (s : TrustStore) :
    (∃ s', save F g s = (.ok (), s')) ↔ Encodable g.stack (payload s.peers) := by
  rw [← dumps_iff F .indented g.stack (payload s.peers)]
  constructor
  · rintro ⟨s', h⟩
    obtain ⟨t, ht, -⟩ := save_ok h
    exact ⟨t, ht⟩
  · rintro ⟨t, ht⟩
    exact ⟨{ s with file := some t }, by simp only [save, ht, hdisk, if_true]⟩

/-- A saved record is in sync if it can be read in the room there is. -/
theorem inSync_save {g : Setting} {s s' : TrustStore} (h : save F g s = (.ok (), s'))
    (hstack : g.stack ≤ limit) (hcanonical : PeersAll Canonical s.peers) : InSync F limit s' := by
  obtain ⟨t, ht, rfl⟩ := save_ok h
  have henc := (dumps_iff F .indented g.stack (payload s.peers)).mp ⟨t, ht⟩
  exact ⟨fun g' hdisk => load_dumps hdisk hcanonical (encodable_mono hstack _ henc) ht,
    hcanonical.imp (fun _ hv => hv.nanFree)⟩

theorem PeersAll.keys {Q : Py → Prop} {peers : Dict Text Entry} (h : PeersAll Q peers) :
    PeersAll (fun _ => True) peers := h.imp (fun _ _ => trivial)

theorem save_clean {g : Setting} (hg : g.Fits room) (hlimit : room + 3 ≤ limit) {s : TrustStore}
    (hclean : PeersAll (Clean room) s.peers) (hlisted : Listed s.peers) :
    ∃ t, save F g s = (.ok (), { s with file := some t }) ∧
      Sound F room limit { s with file := some t } := by
  have hpayload := (encodable_payload hclean.keys).mpr (hclean.imp (fun _ hv => hv.1))
  obtain ⟨s', hs'⟩ := (save_iff (F := F) hg.disk s).mpr (encodable_mono hg.stack _ hpayload)
  obtain ⟨t, ht, rfl⟩ := save_ok hs'
  have hcanonical := hclean.imp (fun _ hv => hv.2)
  exact ⟨t, hs', hclean, hlisted,
    fun g' hdisk => load_dumps hdisk hcanonical (encodable_mono hlimit _ hpayload) ht,
    hcanonical.imp (fun _ hv => hv.nanFree)⟩

/-- A clean call keeps a sound store sound; it returns, or it is about no
identity and changes nothing. -/
theorem sound_run {g : Setting} (hg : g.Fits room) (hroom : 0 < room) (hlimit : room + 3 ≤ limit)
    {s : TrustStore} (hs : Sound F room limit s) {c : Call} (hc : CleanCall room c) :
    Sound F room limit (run F g s c).2 := by
  rcases run_kind F g s c with ⟨-, v, hrun⟩ | ⟨-, -, e, hrun⟩ |
    ⟨-, ⟨k, e, v, -, he, hv, hnot⟩, -⟩ | ⟨-, peers, v, hrun, hrecords⟩
  · rw [hrun]
    exact hs
  · rw [hrun]
    exact hs
  · obtain ⟨items, hitems⟩ := hs.listed k e v he hv
    exact absurd hitems (hnot items)
  · have hclean := (hrecords.all hs.clean.keys hc.1 (basic_clean hroom)).mpr
      (.of_all (basic_clean hroom) hs.clean hc.2)
    obtain ⟨t, hsave, hsound⟩ := save_clean (F := F) hg hlimit (s := { s with peers := peers })
      hclean (hrecords.listed hs.listed)
    rw [hrun, update, hsave]
    exact hsound

/-- A store that was just opened is sound, if what it read is clean. -/
theorem sound_load {g : Setting} (hg : g.Fits room) (hlimit : room + 3 ≤ limit)
    {file : Option (List Char)} {s : TrustStore} (hload : load F g limit file = .ok s)
    (hclean : PeersAll (Clean room) s.peers) (hlisted : Listed s.peers) :
    Sound F room limit s := by
  have hcanonical := hclean.imp (fun _ hv => hv.2)
  refine ⟨hclean, hlisted, ?_, hcanonical.imp (fun _ hv => hv.nanFree)⟩
  intro g' hdisk
  cases file with
  | none =>
    cases hload
    rfl
  | some t =>
    simp only [load, hg.disk, if_true] at hload
    split at hload
    · rename_i hloads
      cases hload
      simp only [load, hdisk, if_true, hloads]
    · cases hload
    · rename_i fields hloads
      split at hload
      · rename_i hversion
        split at hload
        · rename_i peers hpeers
          cases hload
          simp only [load, hdisk, if_true, hloads, hversion, hpeers]
        · cases hload
      · -- a file of the first version has been replaced
        split at hload
        · cases hload
        · rename_i s' hsave
          cases hload
          obtain ⟨t', ht, rfl⟩ := save_ok hsave
          exact load_dumps hdisk hcanonical (encodable_mono hlimit _
            ((encodable_payload hclean.keys).mpr (hclean.imp (fun _ hv => hv.1)))) ht
    · rename_i v hnot hloads
      cases hload
      simp only [load, hdisk, if_true, hloads]

end Sound

/-- A store without a file. -/
def fresh : TrustStore := ⟨.empty, none⟩

theorem peersAll_fresh (Q : Py → Prop) : PeersAll Q fresh.peers := by
  simp [PeersAll, fresh]

theorem sound_fresh {F : FloatFormat} {room limit : Nat} : Sound F room limit fresh where
  clean := peersAll_fresh _
  listed := by simp [Listed, fresh]
  sync := ⟨fun _ _ => rfl, peersAll_fresh _⟩

/-- Room for records whose values are not nested, at time 0. -/
def plainSetting : Setting := ⟨4, true, 0, rfl⟩

theorem plainSetting_fits : plainSetting.Fits 1 := ⟨Nat.le_refl 4, rfl⟩

end TrustStore

end Memnode.Peers
