/-
Memnode.Peers.History — what the trust store says is what happened.

The calls of `TrustStore` and the reopening of its file are `Step`s; a
file of the first version puts one more event in front of them for every
identity it names. `since` is the life of an identity in such a history:
everything from its creation on, if it was not revoked after.

  §1 histories: what one more event does to a life (`since_concat`).
  §2 records: `Standing` reads the fields of a record off the life of
     its identity. The calls keep it whatever the disk does, since they
     change the record before they save it.
  §3 files: reopening is the one step that reads the file. It finds the
     record again if every text was one that the file can hold.
  §4 whole runs.
-/
import Mathlib.Data.List.DropRight
import Memnode.Peers.TrustStore

namespace Memnode.Peers.TrustStore

open Lib Lib.Json

/-! ## §1 Histories -/

/-- A call with strings for arguments, or the file opened anew. -/
inductive Step where
  | trust (pubkey name : Text) (verified : Bool) (method addr : Text)
  | markVerified (pubkey method : Text)
  | revoke (pubkey : Text)
  | reload

inductive Event where
  /-- the first `_load` found the identity in a file of the first version -/
  | migrated (pubkey : Text)
  | step (s : Step)

namespace Event

/-- `trust`, or the migration, makes a record if there is none. -/
def creates (k : Text) : Event → Bool
  | .migrated pubkey => pubkey = k
  | .step (.trust pubkey ..) => pubkey = k
  | _ => false

def revokes (k : Text) : Event → Bool
  | .step (.revoke pubkey) => pubkey = k
  | _ => false

def verifies (k : Text) : Event → Bool
  | .step (.trust pubkey _ verified ..) => verified && (pubkey = k : Bool)
  | .step (.markVerified pubkey _) => pubkey = k
  | _ => false

/-- How the identity was accepted. -/
def method : Event → Text
  | .migrated _ => Py.text "tofu"
  | .step (.trust _ _ _ method _) => method
  | .step (.markVerified _ method) => method
  | .step _ => []

end Event

/-- Events with the setting, and so the time, of each. -/
abbrev History := List (Setting × Event)

/-- From the creation of `k` on, if `k` was not revoked after. -/
def since (k : Text) (h : History) : History :=
  (h.rtakeWhile (fun x => !x.2.revokes k)).dropWhile (fun x => !x.2.creates k)

/-- The method of the last event that verified, or of the creation. -/
def methodIn (k : Text) (life : History) : Option Text :=
  ((life.filter (fun x => x.2.verifies k)).getLast?.or life.head?).map (fun x => x.2.method)

theorem since_concat (k : Text) (h : History) (x : Setting × Event) :
    since k (h ++ [x]) =
      if x.2.revokes k then []
      else if since k h = [] ∧ x.2.creates k = false then [] else since k h ++ [x] := by
  unfold since
  by_cases hr : x.2.revokes k = true
  · rw [List.rtakeWhile_concat_neg _ _ _ (by simp [hr]), if_pos hr, List.dropWhile_nil]
  · rw [List.rtakeWhile_concat_pos _ _ _ (by simp [hr]), if_neg hr, List.dropWhile_append]
    generalize (h.rtakeWhile (fun x => !x.2.revokes k)).dropWhile (fun x => !x.2.creates k) = life
    cases life with
    | nil =>
      cases hc : x.2.creates k with
      | true => simp [hc]
      | false => simp [hc]
    | cons y life => simp

theorem methodIn_concat {k : Text} {life : History} (hne : life ≠ []) (x : Setting × Event) :
    methodIn k (life ++ [x])
      = if x.2.verifies k then some x.2.method else methodIn k life := by
  unfold methodIn
  obtain ⟨y, rest, rfl⟩ := List.exists_cons_of_ne_nil hne
  rw [List.filter_append]
  by_cases hv : x.2.verifies k = true
  · simp [hv, List.filter_cons_of_pos]
  · simp [hv, List.filter_cons_of_neg]

/-! ## §2 Records -/

/-- What the record of `k` says about its life. -/
structure Standing (k : Text) (life : History) (e : Entry) : Prop where
  verified : e.get (Py.text "verified") = some (.bool (life.any (fun x => x.2.verifies k)))
  method : e.get (Py.text "method") = (methodIn k life).map .str
  firstSeen : e.get (Py.text "first_seen") = life.head?.map (fun x => .float x.1.now)
  addresses : ∃ addrs : List Text, e.get (Py.text "addresses") = some (.list (addrs.map .str)) ∧
    addrs.Nodup ∧ addrs.length ≤ 8

/-- There is a record exactly for a life, and it says what happened. -/
structure Reflects (k : Text) (life : History) (entry : Option Entry) : Prop where
  trusted : entry.isSome = true ↔ life ≠ []
  standing : ∀ e, entry = some e → Standing k life e

variable {k : Text} {life : History} {e e' : Entry} {x : Setting × Event}

/-- One more event, and the record written anew for it. -/
theorem Standing.extend (h : Standing k life e) (hne : life ≠ [])
    (hverified : e'.get (Py.text "verified")
      = some (.bool (life.any (fun x => x.2.verifies k) || x.2.verifies k)))
    (hmethod : e'.get (Py.text "method")
      = if x.2.verifies k then some (.str x.2.method) else e.get (Py.text "method"))
    (hfirst : e'.get (Py.text "first_seen") = e.get (Py.text "first_seen"))
    (haddrs : ∃ addrs : List Text, e'.get (Py.text "addresses") = some (.list (addrs.map .str)) ∧
      addrs.Nodup ∧ addrs.length ≤ 8) : Standing k (life ++ [x]) e' where
  verified := by rw [hverified, List.any_append]; simp
  method := by
    rw [hmethod, h.method, methodIn_concat hne]
    split <;> rfl
  firstSeen := by
    obtain ⟨y, rest, rfl⟩ := List.exists_cons_of_ne_nil hne
    rw [hfirst, h.firstSeen]
    rfl
  addresses := haddrs

/-- An event about somebody else. -/
theorem Standing.other (h : Standing k life e) (hne : life ≠ []) (hx : x.2.verifies k = false) :
    Standing k (life ++ [x]) e :=
  h.extend hne (by rw [h.verified, hx, Bool.or_false]) (by simp [hx]) rfl h.addresses

theorem isVerified_of_get {b : Bool} (h : e.get (Py.text "verified") = some (.bool b)) :
    e.isVerified = b := by
  simp [Entry.isVerified, h, Py.truthy]

/-- The fields of a record that `trust` has seen. -/
theorem seen_fields (e : Entry) (g : Setting) (name : Py) (verified : Bool) (method : Text) :
    let e' := e.seen g name verified method
    e'.get (Py.text "verified") = some (.bool (e.isVerified || verified)) ∧
      e'.get (Py.text "method")
        = (if verified || (e.get (Py.text "method")).isNone then some (.str method)
            else e.get (Py.text "method")) ∧
      e'.get (Py.text "first_seen") = e.get (Py.text "first_seen") ∧
      e'.get (Py.text "addresses") = e.get (Py.text "addresses") := by
  dsimp only
  simp only [get_seen, Py.text_inj]
  cases verified <;> cases e.get (Py.text "method") <;> simp

/-- One address more, among at most eight different ones. -/
theorem addAddress_fields (addr : Text) {addrs : List Text}
    (h : e.get (Py.text "addresses") = some (.list (addrs.map .str))) (hnd : addrs.Nodup)
    (hlen : addrs.length ≤ 8) :
    ∃ (e' : Entry) (addrs' : List Text), e.addAddress addr = .ok e' ∧
      e'.get (Py.text "addresses") = some (.list (addrs'.map .str)) ∧ addrs'.Nodup ∧
      addrs'.length ≤ 8 ∧ ∀ field, field ≠ Py.text "addresses" → e'.get field = e.get field := by
  have hmem : (addrs.map Py.str).any (Entry.isStr addr) = true ↔ addr ∈ addrs := by
    rw [List.any_map, List.any_eq_true]
    simp [Entry.isStr]
  unfold Entry.addAddress
  rw [h]
  simp only [Option.getD_some]
  split
  · exact ⟨e, addrs, rfl, h, hnd, hlen, fun _ _ => rfl⟩
  · split
    · exact ⟨e, addrs, rfl, h, hnd, hlen, fun _ _ => rfl⟩
    · rename_i hnew
      have hnd' : (addrs ++ [addr]).Nodup := by
        rw [List.nodup_append]
        refine ⟨hnd, by simp, ?_⟩
        intro a ha b hb heq
        rw [List.mem_singleton.mp hb] at heq
        exact hnew (hmem.mpr (heq ▸ ha))
      refine ⟨_, (addrs ++ [addr]).drop ((addrs ++ [addr]).length - 8), rfl, ?_,
        hnd'.sublist (List.drop_sublist ..), ?_, ?_⟩
      · rw [Dict.get_set_self]
        simp [List.map_drop]
      · rw [List.length_drop]
        omega
      · intro field hfield
        rw [Dict.get_set, if_neg hfield]

/-- `trust` on the record of `k`, or on a new one. -/
theorem trust_standing {entry : Option Entry} (h : Reflects k life entry) (g : Setting)
    (name : Text) (verified : Bool) (method addr : Text) :
    ∃ e', ((entry.getD (.created g (.str name))).seen g (.str name) verified method).addAddress addr
        = .ok e' ∧
      Standing k (life ++ [(g, .step (.trust k name verified method addr))]) e' := by
  obtain ⟨hverified, hmethod, hfirst, haddrs⟩ :=
    seen_fields (entry.getD (.created g (.str name))) g (.str name) verified method
  generalize (entry.getD (.created g (.str name))).seen g (.str name) verified method = seen at *
  have hverifies : (Event.step (.trust k name verified method addr)).verifies k = verified := by
    simp [Event.verifies]
  cases entry with
  | none =>
    have hnil : life = [] := by
      by_contra hne
      cases h.trusted.mpr hne
    subst hnil
    have hfields : ∀ field, (Entry.created g (.str name)).get (Py.text field)
        = if field = "addresses" then some (.list [])
          else if field = "first_seen" then some (.float g.now)
          else if field = "name" then some (.str name) else none := by
      intro field
      simp only [Entry.created, get_set_text, Dict.get_empty]
    rw [Option.getD_none] at hverified hmethod hfirst haddrs
    rw [hfields] at hmethod hfirst haddrs
    have hnone : seen.get (Py.text "addresses") = some (.list (([] : List Text).map .str)) := haddrs
    obtain ⟨e', addrs, hadd, haddrs', hnd, hlen, hother⟩ :=
      addAddress_fields addr hnone (by simp) (by simp)
    have hunverified : (Entry.created g (.str name)).isVerified = false := by
      simp [Entry.isVerified, hfields]
    refine ⟨e', hadd, ?_, ?_, ?_, addrs, haddrs', hnd, hlen⟩
    · rw [hother _ (by decide), hverified, hunverified]
      simp [hverifies]
    · rw [hother _ (by decide), hmethod]
      cases verified with
      | true => simp [methodIn, hverifies, Event.method]
      | false => simp [methodIn, hverifies, Event.method]
    · rw [hother _ (by decide), hfirst]
      rfl
  | some e =>
    have hne : life ≠ [] := h.trusted.mp rfl
    have hold := h.standing e rfl
    obtain ⟨addrs, hget, hnd, hlen⟩ := hold.addresses
    rw [Option.getD_some] at hverified hmethod hfirst haddrs
    rw [hget] at haddrs
    obtain ⟨e', addrs', hadd, haddrs', hnd', hlen', hother⟩ :=
      addAddress_fields addr haddrs hnd hlen
    refine ⟨e', hadd, hold.extend hne ?_ ?_ ?_ ⟨addrs', haddrs', hnd', hlen'⟩⟩
    · rw [hother _ (by decide), hverified, isVerified_of_get hold.verified, hverifies]
    · obtain ⟨y, rest, rfl⟩ := List.exists_cons_of_ne_nil hne
      have hsome : (e.get (Py.text "method")).isNone = false := by
        rw [hold.method]
        simp [methodIn]
      rw [hother _ (by decide), hmethod, hsome, Bool.or_false, hverifies]
      rfl
    · rw [hother _ (by decide), hfirst]

/-- `mark_verified` on the record of `k`. -/
theorem markVerified_standing (h : Standing k life e) (hne : life ≠ []) (g : Setting)
    (method : Text) :
    Standing k (life ++ [(g, .step (.markVerified k method))])
      ((e.set (Py.text "verified") (.bool true)).set (Py.text "method") (.str method)) := by
  have hverifies : (Event.step (.markVerified k method)).verifies k = true := by
    simp [Event.verifies]
  refine h.extend hne ?_ ?_ ?_ ?_
  · simp [get_set_text, hverifies]
  · simp [hverifies, Event.method]
  · simp [get_set_text]
  · simpa [get_set_text] using h.addresses

section Steps

variable {hist : History} {entry : Option Entry}

theorem Reflects.gone (hx : x.2.revokes k = true) : Reflects k (since k (hist ++ [x])) none := by
  rw [since_concat, if_pos hx]
  exact ⟨by simp, by simp⟩

theorem Reflects.new (hx : x.2.revokes k = false)
    (hlive : since k hist ≠ [] ∨ x.2.creates k = true) (hs : Standing k (since k hist ++ [x]) e) :
    Reflects k (since k (hist ++ [x])) (some e) := by
  have hnot : ¬(since k hist = [] ∧ x.2.creates k = false) := by
    rintro ⟨hnil, hc⟩
    rcases hlive with hne | hc'
    · exact hne hnil
    · rw [hc] at hc'
      cases hc'
  rw [since_concat, hx, if_neg Bool.false_ne_true, if_neg hnot]
  refine ⟨by simp, ?_⟩
  intro e' he'
  cases he'
  exact hs

/-- An event that is not about `k`. -/
theorem Reflects.other (h : Reflects k (since k hist) entry) (hr : x.2.revokes k = false)
    (hc : x.2.creates k = false) (hv : x.2.verifies k = false) :
    Reflects k (since k (hist ++ [x])) entry := by
  cases entry with
  | none =>
    have hnil : since k hist = [] := by
      by_contra hne
      cases h.trusted.mpr hne
    rw [since_concat, hr, if_neg Bool.false_ne_true, if_pos ⟨hnil, hc⟩]
    exact ⟨by simp, by simp⟩
  | some e =>
    have hne := h.trusted.mp rfl
    exact .new hr (.inl hne) ((h.standing e rfl).other hne hv)

/-- The call of a step that is one. -/
def Step.call : Step → Option Call
  | .trust pubkey name verified method addr => some (.trust pubkey (.str name) verified method addr)
  | .markVerified pubkey method => some (.markVerified pubkey (.str method))
  | .revoke pubkey => some (.revoke (.str pubkey))
  | .reload => none

variable (F : FloatFormat)

/-- A call with strings, whether it can be saved or not. -/
theorem reflects_run {s : TrustStore} (h : ∀ k, Reflects k (since k hist) (s.peers.get k))
    (g : Setting) {st : Step} {c : Call} (hc : st.call = some c) (k : Text) :
    Reflects k (since k (hist ++ [(g, .step st)])) ((run F g s c).2.peers.get k) := by
  cases st with
  | trust pubkey name verified method addr =>
    cases hc
    obtain ⟨e', hadd, hstanding⟩ := trust_standing (h pubkey) g name verified method addr
    simp only [run, trust, hadd, peers_update, Dict.get_set]
    by_cases hk : k = pubkey
    · subst hk
      rw [if_pos rfl]
      exact .new rfl (.inr (by simp [Event.creates])) hstanding
    · have hne : ¬pubkey = k := fun heq => hk heq.symm
      rw [if_neg hk]
      exact (h k).other rfl (by simp [Event.creates, hne]) (by simp [Event.verifies, hne])
  | markVerified pubkey method =>
    cases hc
    have hother : ∀ k, k ≠ pubkey → Reflects k
        (since k (hist ++ [(g, .step (.markVerified pubkey method))])) (s.peers.get k) := by
      intro k hk
      exact (h k).other rfl rfl (by simp [Event.verifies, Ne.symm hk])
    cases hget : s.peers.get pubkey with
    | none =>
      simp only [run, markVerified, hget]
      by_cases hk : k = pubkey
      · -- there is nobody to verify
        subst hk
        have hnil : since k hist = [] := by
          by_contra hne
          have hsome := (h k).trusted.mpr hne
          rw [hget] at hsome
          cases hsome
        rw [hget, since_concat]
        exact ⟨by simp [hnil, Event.creates, Event.revokes], by simp⟩
      · exact hother k hk
    | some e =>
      simp only [run, markVerified, hget, peers_update, Dict.get_set]
      by_cases hk : k = pubkey
      · subst hk
        have hlive := (h k).trusted.mp (by rw [hget]; rfl)
        rw [if_pos rfl]
        exact .new rfl (.inl hlive)
          (markVerified_standing ((h k).standing e hget) hlive g method)
      · rw [if_neg hk]
        exact hother k hk
  | revoke pubkey =>
    cases hc
    have hpeers : (run F g s (.revoke (.str pubkey))).2.peers.get k
        = if k = pubkey then none else s.peers.get k := by
      cases hget : s.peers.get pubkey with
      | none =>
        simp only [run, revoke, isTrusted, hget, Option.isSome_none, Bool.false_eq_true, if_false]
        split
        · rename_i hk
          rw [hk, hget]
        · rfl
      | some e =>
        simp only [run, revoke, isTrusted, hget, Option.isSome_some, if_true, peers_update,
          Dict.get_erase]
    rw [hpeers]
    by_cases hk : k = pubkey
    · subst hk
      rw [if_pos rfl]
      exact .gone (by simp [Event.revokes])
    · rw [if_neg hk]
      exact (h k).other (by simp [Event.revokes, Ne.symm hk]) rfl rfl
  | reload => cases hc

end Steps

/-! ## §3 Files -/

/-- No file, one that is no JSON (an empty one, say), or an object of the
first version. -/
inductive FirstFile (F : FloatFormat) (limit : Nat) : Option (List Char) → Prop where
  | absent : FirstFile F limit none
  | malformed {t : List Char} : loads F limit t = .error .malformed → FirstFile F limit (some t)
  | flat {t : List Char} {fields : List (Py.Key × Py)} : loads F limit t = .ok (.dict fields) →
      isVersion (Py.get fields "version") = false → FirstFile F limit (some t)

/-- The identity of an entry of such an object, whose value is its name. -/
def named : Py.Key × Py → Option Text
  | (.str k, .str _) => some k
  | _ => none

/-- The identities that a first file names. -/
def identities (F : FloatFormat) (limit : Nat) : Option (List Char) → List Text
  | none => []
  | some t =>
      match loads F limit t with
      | .ok (.dict fields) => fields.filterMap named
      | _ => []

def IsMigrated (g : Setting) (e : Entry) : Prop := ∃ name, Joined name ∧ e = tofuRecord g name

theorem migrated_entries {F : FloatFormat} {limit : Nat} {g : Setting} {t : List Char}
    {fields : List (Py.Key × Py)} (h : loads F limit t = .ok (.dict fields)) :
    ∀ p ∈ (migrated g fields).entries, Joined p.1 ∧ IsMigrated g p.2 := by
  intro p hp
  obtain ⟨f, hf, hmigrate⟩ := List.mem_filterMap.mp (Dict.mem_ofList p hp)
  obtain ⟨hkey, hvalue⟩ := joined_loads h f hf
  obtain ⟨key, value⟩ := f
  cases key with
  | bytes b => cases hmigrate
  | str k =>
    cases value <;> cases hmigrate
    rename_i name
    exact ⟨hkey k rfl, name, hvalue name rfl, rfl⟩

theorem EntryAll.set {Q : Py → Prop} {e : Entry} (h : EntryAll Q e) (field : String) {v : Py}
    (hv : Q v) : EntryAll Q (e.set (Py.text field) v) :=
  (all_set (R := fun f v => Joined f ∧ Q v)).mpr ⟨⟨joined_text field, hv⟩, fun f w hw _ => h f w hw⟩

theorem IsMigrated.clean {g : Setting} {e : Entry} (h : IsMigrated g e) : EntryAll (Clean 1) e := by
  obtain ⟨name, hname, rfl⟩ := h
  have hbasic := basic_clean Nat.one_pos
  have hempty : EntryAll (Clean 1) Dict.empty := by simp [EntryAll]
  exact (((((hempty.set "name" (hbasic.str hname)).set "first_seen" (hbasic.time g)).set "last_seen"
    (hbasic.time g)).set "verified" (hbasic.bool false)).set "method"
    (hbasic.str (joined_text "tofu"))).set "addresses" hbasic.nil

theorem IsMigrated.fields {g : Setting} {e : Entry} (h : IsMigrated g e) :
    e.get (Py.text "verified") = some (.bool false) ∧
      e.get (Py.text "method") = some (.str (Py.text "tofu")) ∧
      e.get (Py.text "first_seen") = some (.float g.now) ∧
      e.get (Py.text "addresses") = some (.list []) := by
  obtain ⟨name, -, rfl⟩ := h
  simp only [tofuRecord, Dict.ofList, List.foldl_cons, List.foldl_nil, get_set_text]
  exact ⟨rfl, rfl, rfl, rfl⟩

theorem isSome_get_migrated (g : Setting) (fields : List (Py.Key × Py)) (k : Text) :
    ((migrated g fields).get k).isSome = true ↔ k ∈ fields.filterMap named := by
  have hnames : (fields.filterMap (migrate g)).map Prod.fst = fields.filterMap named := by
    rw [List.map_filterMap]
    congr 1
    funext f
    obtain ⟨key, value⟩ := f
    cases key <;> cases value <;> rfl
  rw [migrated, Dict.isSome_get_ofList, hnames]

theorem migrated_clean {F : FloatFormat} {limit : Nat} {g : Setting} {t : List Char}
    {fields : List (Py.Key × Py)} (h : loads F limit t = .ok (.dict fields)) :
    PeersAll (Clean 1) (migrated g fields) ∧ Listed (migrated g fields) := by
  have hall : ∀ k e, (migrated g fields).get k = some e → Joined k ∧ IsMigrated g e :=
    fun k e he => migrated_entries h (k, e) ((Dict.get_eq_some_iff ..).mp he)
  refine ⟨fun k e he => ⟨(hall k e he).1, (hall k e he).2.clean⟩, fun k e v he hv => ⟨[], ?_⟩⟩
  exact Option.some.inj (hv.symm.trans (hall k e he).2.fields.2.2.2)

/-- A first file opens, with a migrated record for every identity it names. -/
theorem load_first {F : FloatFormat} {limit : Nat} (hlimit : 4 ≤ limit) {g : Setting}
    (hg : g.Fits 1) {file : Option (List Char)} (h : FirstFile F limit file) :
    ∃ s, load F g limit file = .ok s ∧ Sound F 1 limit s ∧
      (∀ p ∈ s.peers.entries, IsMigrated g p.2) ∧
      ∀ k, (s.peers.get k).isSome = true ↔ k ∈ identities F limit file := by
  cases h with
  | absent =>
    exact ⟨fresh, rfl, sound_fresh, by simp [fresh, Dict.empty], by simp [fresh, identities]⟩
  | @malformed t hbad =>
    have hload : load F g limit (some t) = .ok ⟨.empty, some t⟩ := by
      simp only [load, hg.disk, if_true, hbad]
    exact ⟨_, hload, sound_load hg hlimit hload (by simp [PeersAll]) (by simp [Listed]),
      by simp [Dict.empty], by simp [identities, hbad]⟩
  | @flat t fields hfields hversion =>
    obtain ⟨hclean, hlisted⟩ := migrated_clean (g := g) hfields
    obtain ⟨t', hsave, hsound⟩ :=
      save_clean (F := F) hg hlimit (s := ⟨migrated g fields, some t⟩) hclean hlisted
    refine ⟨_, ?_, hsound, fun p hp => (migrated_entries hfields p hp).2, ?_⟩
    · simp only [load, hg.disk, if_true, hfields, hversion, hsave, Bool.false_eq_true, if_false]
    · intro k
      simp only [identities, hfields]
      exact isSome_get_migrated g fields k

/-- What the first `_load` put in front of the steps. -/
def migrations (g : Setting) (ids : List Text) : History := ids.map (fun k => (g, .migrated k))

theorem since_migrations (g : Setting) (ids : List Text) (k : Text) :
    since k (migrations g ids)
      = (migrations g ids).dropWhile (fun x => !x.2.creates k) := by
  rw [since, List.rtakeWhile_eq_self_iff.mpr]
  intro x hx
  obtain ⟨k', -, rfl⟩ := List.mem_map.mp hx
  rfl

theorem reflects_migrations {g : Setting} {peers : Dict Text Entry} {ids : List Text}
    (hall : ∀ p ∈ peers.entries, IsMigrated g p.2)
    (hids : ∀ k, (peers.get k).isSome = true ↔ k ∈ ids) (k : Text) :
    Reflects k (since k (migrations g ids)) (peers.get k) := by
  have hlive : since k (migrations g ids) ≠ [] ↔ k ∈ ids := by
    rw [since_migrations, ne_eq, List.dropWhile_eq_nil_iff]
    simp [migrations, Event.creates]
  refine ⟨(hids k).trans hlive.symm, ?_⟩
  intro e he
  obtain ⟨hverified, hmethod, hfirst, haddrs⟩ :=
    (hall (k, e) ((peers.get_eq_some_iff k e).mp he)).fields
  have hne := hlive.mpr ((hids k).mp (by rw [he]; rfl))
  have hevents : ∀ x ∈ since k (migrations g ids), ∃ k', x = (g, .migrated k') := by
    intro x hx
    rw [since_migrations] at hx
    obtain ⟨k', -, rfl⟩ := List.mem_map.mp ((List.dropWhile_sublist _).mem hx)
    exact ⟨k', rfl⟩
  generalize since k (migrations g ids) = life at hne hevents
  have hplain : ∀ x ∈ life, x.2.verifies k = false := by
    intro x hx
    obtain ⟨k', rfl⟩ := hevents x hx
    rfl
  obtain ⟨y, rest, rfl⟩ := List.exists_cons_of_ne_nil hne
  obtain ⟨k', rfl⟩ := hevents y List.mem_cons_self
  have hnone : ((g, Event.migrated k') :: rest).filter (fun x => x.2.verifies k) = [] :=
    List.filter_eq_nil_iff.mpr (fun x hx => by simp [hplain x hx])
  refine ⟨?_, ?_, hfirst, [], haddrs, by simp, by simp⟩
  · rw [hverified, List.any_eq_false.mpr (fun x hx => by simp [hplain x hx])]
  · rw [hmethod, methodIn, hnone]
    rfl

/-! ## §4 Whole runs -/

section Runs

variable (F : FloatFormat) (limit : Nat)

/-- A call leaves the store it leaves, whether it raises or not; the file
opened anew takes the place of the store. -/
def step (g : Setting) (s : TrustStore) (st : Step) : Except TrustError TrustStore :=
  match st.call with
  | some c => .ok (run F g s c).2
  | none => load F g limit s.file

def runSteps (s : TrustStore) : List (Setting × Step) → Except TrustError TrustStore
  | [] => .ok s
  | (g, st) :: rest =>
      match step F limit g s st with
      | .error e => .error e
      | .ok s' => runSteps s' rest

/-- The texts that a step records are texts that a file can hold. -/
def Step.Storable : Step → Prop
  | .trust pubkey name _ method addr => Joined pubkey ∧ Joined name ∧ Joined method ∧ Joined addr
  | .markVerified _ method => Joined method
  | _ => True

/-- Nothing will be read back, or all that is written can be. -/
def Ready (s : TrustStore) (steps : List (Setting × Step)) : Prop :=
  (∀ x ∈ steps, x.2 ≠ .reload) ∨
    (Sound F 1 limit s ∧ ∀ x ∈ steps, x.1.Fits 1 ∧ x.2.Storable)

variable {F limit}

theorem cleanCall_of_storable {st : Step} {c : Call} (hc : st.call = some c) (h : st.Storable) :
    CleanCall 1 c := by
  have hstr : ∀ {t}, Joined t → Clean 1 (.str t) := (basic_clean Nat.one_pos).str
  cases st with
  | trust pubkey name verified method addr =>
    cases hc
    refine ⟨⟨h.1, h.2.2⟩, ?_⟩
    rintro v ⟨⟩
    exact hstr h.2.1
  | markVerified pubkey method =>
    cases hc
    refine ⟨trivial, ?_⟩
    rintro v ⟨⟩
    exact hstr h
  | revoke pubkey =>
    cases hc
    exact ⟨trivial, fun v hv => by cases hv⟩
  | reload => cases hc

/-- One step. Reopening gives the same store back. -/
theorem reflects_step (hlimit : 4 ≤ limit) {hist : History} {s : TrustStore}
    (h : ∀ k, Reflects k (since k hist) (s.peers.get k)) {x : Setting × Step}
    {rest : List (Setting × Step)} (hready : Ready F limit s (x :: rest)) :
    ∃ s', step F limit x.1 s x.2 = .ok s' ∧ Ready F limit s' rest ∧
      ∀ k, Reflects k (since k (hist ++ [(x.1, .step x.2)])) (s'.peers.get k) := by
  obtain ⟨g, st⟩ := x
  cases hcall : st.call with
  | some c =>
    refine ⟨_, by simp only [step, hcall], ?_, reflects_run F h g hcall⟩
    rcases hready with hno | ⟨hsound, hall⟩
    · exact .inl (fun x hx => hno x (List.mem_cons_of_mem _ hx))
    · obtain ⟨hfits, hstorable⟩ := hall (g, st) List.mem_cons_self
      refine .inr ⟨?_, fun x hx => hall x (List.mem_cons_of_mem _ hx)⟩
      exact sound_run hfits Nat.one_pos hlimit hsound (cleanCall_of_storable hcall hstorable)
  | none =>
    have hreload : st = .reload := by
      cases st with
      | reload => rfl
      | _ => cases hcall
    subst hreload
    rcases hready with hno | ⟨hsound, hall⟩
    · exact absurd rfl (hno _ List.mem_cons_self)
    · refine ⟨s, hsound.sync.reload g (hall _ List.mem_cons_self).1.disk,
        .inr ⟨hsound, fun x hx => hall x (List.mem_cons_of_mem _ hx)⟩, ?_⟩
      exact fun k => (h k).other rfl rfl rfl

theorem reflects_runSteps (hlimit : 4 ≤ limit) {steps : List (Setting × Step)} :
    ∀ {hist : History} {s : TrustStore}, (∀ k, Reflects k (since k hist) (s.peers.get k)) →
      Ready F limit s steps →
      ∃ s', runSteps F limit s steps = .ok s' ∧
        ∀ k, Reflects k (since k (hist ++ steps.map (fun x => (x.1, .step x.2))))
          (s'.peers.get k) := by
  induction steps with
  | nil =>
    intro hist s h _
    exact ⟨s, rfl, by simpa using h⟩
  | cons x rest ih =>
    intro hist s h hready
    obtain ⟨s₁, hstep, hready₁, h₁⟩ := reflects_step hlimit h hready
    obtain ⟨s', hrun, h'⟩ := ih h₁ hready₁
    refine ⟨s', ?_, ?_⟩
    · rw [runSteps, hstep]
      exact hrun
    · simpa [List.append_assoc] using h'

/-- A reconnect without verification keeps what was verified, and how. -/
theorem reconnect_keeps {s : TrustStore} {life : History} {k : Text} {e : Entry}
    (h : Reflects k life (s.peers.get k)) (hget : s.peers.get k = some e) (g : Setting)
    (name method addr : Text) :
    ∃ e', (run F g s (.trust k (.str name) false method addr)).2.peers.get k = some e' ∧
      e'.isVerified = e.isVerified ∧ e'.get (Py.text "method") = e.get (Py.text "method") := by
  have hne : life ≠ [] := h.trusted.mp (by rw [hget]; rfl)
  have hold := h.standing e hget
  obtain ⟨e', hadd, hnew⟩ := trust_standing h g name false method addr
  have hplain : (Event.step (.trust k name false method addr)).verifies k = false := rfl
  refine ⟨e', ?_, ?_, ?_⟩
  · simp only [run, trust, hadd, peers_update, Dict.get_set_self]
  · rw [isVerified_of_get hnew.verified, isVerified_of_get hold.verified, List.any_append]
    simp [hplain]
  · rw [hnew.method, hold.method, methodIn_concat hne, hplain, if_neg Bool.false_ne_true]

/-- **Trust records reflect their history.** From no file, an unreadable
one or one of the first version, through any calls with strings, and
through reopenings if every text is one that a file can hold: an identity
is trusted exactly if it has a life, and its record says when that life
began, whether and how it was verified since, and at most eight different
addresses. A reconnect takes nothing of that back. -/
theorem records_reflect_history (hlimit : 4 ≤ limit) {g : Setting} (hg : g.Fits 1)
    {file : Option (List Char)} (hfile : FirstFile F limit file) (steps : List (Setting × Step))
    (hsteps : (∀ x ∈ steps, x.2 ≠ .reload) ∨ ∀ x ∈ steps, x.1.Fits 1 ∧ x.2.Storable) :
    ∃ s₀ s, load F g limit file = .ok s₀ ∧ runSteps F limit s₀ steps = .ok s ∧
      ∀ k, let life := since k (migrations g (identities F limit file)
          ++ steps.map (fun x => (x.1, .step x.2)))
        (s.isTrusted k = true ↔ life ≠ []) ∧
        s.isVerified k = life.any (fun x => x.2.verifies k) ∧
        ∀ e, s.peers.get k = some e → Standing k life e ∧
          ∀ g' name method addr, ∃ e',
            (run F g' s (.trust k (.str name) false method addr)).2.peers.get k = some e' ∧
            e'.isVerified = e.isVerified ∧
            e'.get (Py.text "method") = e.get (Py.text "method") := by
  obtain ⟨s₀, hload, hsound, hall, hids⟩ := load_first hlimit hg hfile
  have hready : Ready F limit s₀ steps := hsteps.imp id (fun h => ⟨hsound, h⟩)
  obtain ⟨s, hrun, hreflects⟩ := reflects_runSteps hlimit (reflects_migrations hall hids) hready
  refine ⟨s₀, s, hload, hrun, fun k => ?_⟩
  have hk := hreflects k
  refine ⟨hk.trusted, ?_, fun e he => ⟨hk.standing e he, reconnect_keeps hk he⟩⟩
  cases hget : s.peers.get k with
  | none =>
    have hnil := not_not.mp (mt hk.trusted.mpr (by simp [hget]))
    simp [isVerified, hget, hnil]
  | some e => simp [isVerified, hget, isVerified_of_get (hk.standing e hget).verified]

/-- A file of the first version with one name. -/
def pcFile : List Char := ['{', '"', 'a', 'b', '"', ':', '"', 'p', 'c', '"', '\x7d']

/-- The migrated identity is verified, the file is opened anew, and the
peer connects again. -/
def pcSteps : List (Setting × Step) :=
  [(plainSetting, .markVerified (Py.text "ab") (Py.text "sas")), (plainSetting, .reload),
    (plainSetting, .trust (Py.text "ab") (Py.text "pc") false (Py.text "tofu")
      (Py.text "10.0.0.2:7"))]

theorem records_reflect_history_pc :
    ∃ s₀ s, load .spelled plainSetting 4 (some pcFile) = .ok s₀ ∧
      runSteps .spelled 4 s₀ pcSteps = .ok s ∧ s.isTrusted (Py.text "ab") = true ∧
      s.isVerified (Py.text "ab") = true ∧ s.isTrusted (Py.text "cd") = false := by
  have hloads : loads .spelled 4 pcFile
      = .ok (.dict [(.str (Py.text "ab"), .str (Py.text "pc"))]) := rfl
  have hfile : FirstFile .spelled 4 (some pcFile) := .flat hloads rfl
  have hstorable : ∀ x ∈ pcSteps, x.1.Fits 1 ∧ x.2.Storable := by
    simp [pcSteps, plainSetting_fits, Step.Storable, joined_text]
  have hids : identities .spelled 4 (some pcFile) = [Py.text "ab"] := rfl
  obtain ⟨s₀, s, hload, hrun, h⟩ :=
    records_reflect_history (by decide) plainSetting_fits hfile pcSteps (.inr hstorable)
  rw [hids] at h
  obtain ⟨htrusted, hverified, -⟩ := h (Py.text "ab")
  refine ⟨s₀, s, hload, hrun, htrusted.mpr (by decide), hverified.trans (by decide), ?_⟩
  rw [← Bool.not_eq_true, (h (Py.text "cd")).1]
  decide

end Runs

end Memnode.Peers.TrustStore
