/-
Memnode.RateLimit.Guard — `ratelimit.HandshakeGuard`.

The guard keeps one entry per source address: the times of its admitted
attempts, how many of its handshakes are running and when it was last
seen. `acquire` admits or refuses an attempt, `release` ends a handshake,
and `evictIfNeeded` makes room in the table for a new address. Addresses
are any ordered type; times are exact.

`acquire` touches the entry before it decides, so a refused attempt still
creates an entry, moves `last_seen` and drops expired attempts
(`touched`). `acquire_cases` says once what an `acquire` can do, and
`evictIfNeeded_spec` what eviction takes away: idle addresses only.
-/
import Mathlib.Algebra.Order.Ring.Rat
import Mathlib.Data.List.Sort
import Memnode.Lib.Dict

set_option linter.unusedSectionVars false

namespace Memnode.RateLimit

open Lib

/-- `_IpState`. -/
structure IpState where
  attempts : List Rat := []
  inflight : Nat := 0
  lastSeen : Rat := 0
  deriving DecidableEq, Repr

/-- The constructor's parameters. -/
structure Limits where
  maxPerIpPerWindow : Int
  windowSeconds : Rat
  maxInflightPerIp : Int
  maxInflightTotal : Int
  maxTrackedIps : Int

/-- `HandshakeGuard`. -/
structure HandshakeGuard (α : Type) where
  ips : Dict α IpState
  inflightTotal : Nat
  rejectedRate : Nat
  rejectedInflightIp : Nat
  rejectedInflightTotal : Nat

/-- `HandshakeRejected`. -/
inductive Rejected (α : Type) where
  | total (limit : Int) (ip : α)
  | inflight (ip : α) (running : Nat) (limit : Int)
  | rate (ip : α) (limit : Int) (windowSeconds : Rat)
  deriving DecidableEq, Repr

/-- `(last_seen, ip)` tuples in the order `sorted` puts them. -/
def SeenBefore {α : Type} [LinearOrder α] (a b : Rat × α) : Prop :=
  a.1 < b.1 ∨ (a.1 = b.1 ∧ a.2 ≤ b.2)

instance {α : Type} [LinearOrder α] (a b : Rat × α) : Decidable (SeenBefore a b) :=
  inferInstanceAs (Decidable (a.1 < b.1 ∨ (a.1 = b.1 ∧ a.2 ≤ b.2)))

variable {α : Type} [LinearOrder α] (L : Limits)

/-! ## The code -/

/-- The addresses the first pass of `_evict_if_needed` drops. -/
def stale (now : Rat) (ips : Dict α IpState) : List α :=
  (ips.entries.filter (fun e => e.2.inflight = 0 ∧ e.2.lastSeen < now - L.windowSeconds)).map Prod.fst

/-- The idle addresses, least recently seen first. -/
def idle (ips : Dict α IpState) : List (Rat × α) :=
  ((ips.entries.filter (fun e => e.2.inflight = 0)).map (fun e => (e.2.lastSeen, e.1))).insertionSort
    SeenBefore

/-- The second pass: a tenth of the idle addresses, at least one. -/
def evictIdle (ips : Dict α IpState) : Dict α IpState :=
  ips.eraseAll (((idle ips).take (max 1 ((idle ips).length / 10))).map Prod.snd)

/-- `_evict_if_needed`. -/
def evictIfNeeded (now : Rat) (ips : Dict α IpState) : Dict α IpState :=
  if (ips.size : Int) < L.maxTrackedIps then ips
  else
    let ips := ips.eraseAll (stale L now ips)
    if (ips.size : Int) < L.maxTrackedIps then ips else evictIdle ips

/-- The entry once `acquire` has seen the address and dropped what left the window. -/
def touched (now : Rat) (state : IpState) : IpState :=
  { state with
    lastSeen := now
    attempts := state.attempts.dropWhile (fun a => a < now - L.windowSeconds) }

namespace HandshakeGuard

/-- `__init__`. -/
def init (α : Type) : HandshakeGuard α := ⟨.empty, 0, 0, 0, 0⟩

/-- The table in which `acquire` puts the entry: a new address needs room. -/
def table (g : HandshakeGuard α) (now : Rat) (ip : α) : Dict α IpState :=
  match g.ips.get ip with
  | some _ => g.ips
  | none => evictIfNeeded L now g.ips

/-- `acquire`. -/
def acquire (g : HandshakeGuard α) (now : Rat) (ip : α) :
    HandshakeGuard α × Except (Rejected α) Unit :=
  let state := touched L now ((g.ips.get ip).getD {})
  let g := { g with ips := (g.table L now ip).set ip state }
  if g.inflightTotal ≥ L.maxInflightTotal then
    ({ g with rejectedInflightTotal := g.rejectedInflightTotal + 1 },
      .error (.total L.maxInflightTotal ip))
  else if state.inflight ≥ L.maxInflightPerIp then
    ({ g with rejectedInflightIp := g.rejectedInflightIp + 1 },
      .error (.inflight ip state.inflight L.maxInflightPerIp))
  else if state.attempts.length ≥ L.maxPerIpPerWindow then
    ({ g with rejectedRate := g.rejectedRate + 1 },
      .error (.rate ip L.maxPerIpPerWindow L.windowSeconds))
  else
    let state := { state with attempts := state.attempts ++ [now], inflight := state.inflight + 1 }
    ({ g with ips := g.ips.set ip state, inflightTotal := g.inflightTotal + 1 }, .ok ())

/-- `release`. -/
def release (g : HandshakeGuard α) (ip : α) : HandshakeGuard α :=
  match g.ips.get ip with
  | none => g
  | some state =>
      let (state, total) :=
        if state.inflight > 0 then ({ state with inflight := state.inflight - 1 }, g.inflightTotal - 1)
        else (state, g.inflightTotal)
      if state.inflight = 0 ∧ state.attempts = [] then
        { g with ips := g.ips.erase ip, inflightTotal := total }
      else { g with ips := g.ips.set ip state, inflightTotal := total }

end HandshakeGuard

/-! ## What eviction takes away -/

variable {L}

theorem mem_idle {ips : Dict α IpState} {x : Rat × α} :
    x ∈ idle ips ↔ ∃ st, ips.get x.2 = some st ∧ st.inflight = 0 ∧ st.lastSeen = x.1 := by
  simp only [idle, List.mem_insertionSort, List.mem_map, List.mem_filter, decide_eq_true_eq]
  constructor
  · rintro ⟨⟨ip, st⟩, ⟨hmem, hidle⟩, rfl⟩
    exact ⟨st, (ips.get_eq_some_iff ip st).mpr hmem, hidle, rfl⟩
  · rintro ⟨st, hget, hidle, hseen⟩
    exact ⟨(x.2, st), ⟨(ips.get_eq_some_iff x.2 st).mp hget, hidle⟩, Prod.ext hseen rfl⟩

/-- The second pass drops idle addresses, at least one if there is one. -/
theorem evictIdle_spec (ips : Dict α IpState) :
    ∃ gone, evictIdle ips = ips.eraseAll gone ∧
      (∀ ip ∈ gone, ∀ st, ips.get ip = some st → st.inflight = 0) ∧
      ((∃ e ∈ ips.entries, e.1 ∈ gone) ∨ ∀ e ∈ ips.entries, 0 < e.2.inflight) := by
  refine ⟨_, rfl, ?_, ?_⟩
  · intro ip hip st hst
    obtain ⟨x, hx, rfl⟩ := List.mem_map.mp hip
    obtain ⟨st', hget, hidle, _⟩ := mem_idle.mp (List.mem_of_mem_take hx)
    rw [hst] at hget
    rw [Option.some.inj hget]
    exact hidle
  · cases hidle : idle ips with
    | nil =>
      refine Or.inr fun e he => Nat.pos_of_ne_zero fun hzero => ?_
      have hmem : (e.2.lastSeen, e.1) ∈ idle ips :=
        mem_idle.mpr ⟨e.2, (ips.get_eq_some_iff e.1 e.2).mpr he, hzero, rfl⟩
      rw [hidle] at hmem
      cases hmem
    | cons x rest =>
      obtain ⟨st, hget, _⟩ := mem_idle.mp (show x ∈ idle ips by rw [hidle]; exact List.mem_cons_self)
      refine Or.inl ⟨(x.2, st), (ips.get_eq_some_iff x.2 st).mp hget, List.mem_map.mpr ⟨x, ?_, rfl⟩⟩
      obtain ⟨m, hm⟩ := Nat.exists_eq_add_of_le (Nat.le_max_left 1 ((x :: rest).length / 10))
      rw [hm, Nat.add_comm, List.take_succ_cons]
      exact List.mem_cons_self

/-- Eviction drops idle addresses only. Afterwards there is room, or the
table has become smaller, or no address in it is idle. -/
theorem evictIfNeeded_spec (now : Rat) (ips : Dict α IpState) :
    ∃ gone, evictIfNeeded L now ips = ips.eraseAll gone ∧
      (∀ ip ∈ gone, ∀ st, ips.get ip = some st → st.inflight = 0) ∧
      (((evictIfNeeded L now ips).size : Int) < L.maxTrackedIps ∨
        (evictIfNeeded L now ips).size < ips.size ∨
        ∀ e ∈ (evictIfNeeded L now ips).entries, 0 < e.2.inflight) := by
  by_cases hroom : (ips.size : Int) < L.maxTrackedIps
  · rw [evictIfNeeded, if_pos hroom]
    exact ⟨[], rfl, by simp, Or.inl hroom⟩
  have hstale : ∀ ip ∈ stale L now ips, ∀ st, ips.get ip = some st → st.inflight = 0 := by
    intro ip hip st hst
    obtain ⟨⟨ip', st'⟩, hmem, rfl⟩ := List.mem_map.mp hip
    rw [List.mem_filter, decide_eq_true_eq] at hmem
    rw [(ips.get_eq_some_iff ip' st').mpr hmem.1] at hst
    rw [← Option.some.inj hst]
    exact hmem.2.1
  simp only [evictIfNeeded, if_neg hroom]
  have hsize := ips.size_eraseAll_le (stale L now ips)
  by_cases hroom' : ((ips.eraseAll (stale L now ips)).size : Int) < L.maxTrackedIps
  · rw [if_pos hroom']
    exact ⟨_, rfl, hstale, Or.inl hroom'⟩
  rw [if_neg hroom']
  obtain ⟨gone, heq, hidle, hwhich⟩ := evictIdle_spec (ips.eraseAll (stale L now ips))
  refine ⟨stale L now ips ++ gone, ?_, ?_, ?_⟩
  · rw [heq, Dict.eraseAll, Dict.eraseAll, Dict.eraseAll, List.foldl_append]
  · intro ip hip st hst
    by_cases hip' : ip ∈ stale L now ips
    · exact hstale ip hip' st hst
    · refine hidle ip ((List.mem_append.mp hip).resolve_left hip') st ?_
      rw [Dict.get_eraseAll, if_neg hip', hst]
  · rw [heq]
    rcases hwhich with ⟨e, he, hgone⟩ | hbusy
    · exact Or.inr (Or.inl (Nat.lt_of_lt_of_le (Dict.size_eraseAll_lt he hgone) hsize))
    · refine Or.inr (Or.inr fun e he => hbusy e ?_)
      rw [Dict.eraseAll_entries] at he
      exact List.mem_of_mem_filter he

/-! ## What one call does -/

namespace HandshakeGuard

/-- The ways an `acquire` ends: refused, with the entry touched, or
admitted, with room under all three limits. -/
theorem acquire_cases (g : HandshakeGuard α) (now : Rat) (ip : α) :
    ∃ st, st = touched L now ((g.ips.get ip).getD {}) ∧
      ((∃ e, (g.acquire L now ip).2 = .error e ∧
        (g.acquire L now ip).1.ips = (g.table L now ip).set ip st ∧
        (g.acquire L now ip).1.inflightTotal = g.inflightTotal) ∨
      ((g.acquire L now ip).2 = .ok () ∧ (g.inflightTotal : Int) < L.maxInflightTotal ∧
        (st.inflight : Int) < L.maxInflightPerIp ∧
        (st.attempts.length : Int) < L.maxPerIpPerWindow ∧
        (g.acquire L now ip).1.ips = (g.table L now ip).set ip
          { st with attempts := st.attempts ++ [now], inflight := st.inflight + 1 } ∧
        (g.acquire L now ip).1.inflightTotal = g.inflightTotal + 1)) := by
  refine ⟨_, rfl, ?_⟩
  simp only [acquire]
  generalize touched L now ((g.ips.get ip).getD {}) = st
  split
  · exact Or.inl ⟨_, rfl, rfl, rfl⟩
  split
  · exact Or.inl ⟨_, rfl, rfl, rfl⟩
  split
  · exact Or.inl ⟨_, rfl, rfl, rfl⟩
  · rename_i htotal hinflight hrate
    exact Or.inr ⟨rfl, by omega, by omega, by omega, Dict.set_set _ _ _ _, rfl⟩

/-- The table `acquire` works on is the old one without some idle
addresses, none if the address is known; and it says why a new address
does not make the table larger. -/
theorem table_spec (g : HandshakeGuard α) (now : Rat) (ip : α) :
    ∃ gone, g.table L now ip = g.ips.eraseAll gone ∧
      (∀ k ∈ gone, ∀ st, g.ips.get k = some st → st.inflight = 0) ∧
      (g.table L now ip).get ip = g.ips.get ip ∧
      (g.ips.get ip = none → ((g.table L now ip).size : Int) < L.maxTrackedIps ∨
        (g.table L now ip).size < g.ips.size ∨
        ∀ e ∈ (g.table L now ip).entries, 0 < e.2.inflight) := by
  cases hget : g.ips.get ip with
  | some st =>
    have htable : g.table L now ip = g.ips := by simp only [table, hget]
    rw [htable]
    refine ⟨[], rfl, by simp, hget, ?_⟩
    intro h
    cases h
  | none =>
    have htable : g.table L now ip = evictIfNeeded L now g.ips := by simp only [table, hget]
    obtain ⟨gone, heq, hidle, hroom⟩ := evictIfNeeded_spec (L := L) now g.ips
    rw [htable]
    refine ⟨gone, heq, hidle, ?_, fun _ => hroom⟩
    rw [heq, Dict.get_eraseAll, hget, ite_self]

/-- The end of a running handshake: one less is running, and an entry
with nothing in it goes. -/
theorem release_spec {g : HandshakeGuard α} {ip : α} {st : IpState} (h : g.ips.get ip = some st)
    (hrun : 0 < st.inflight) :
    (g.release ip).inflightTotal = g.inflightTotal - 1 ∧
      ((st.inflight = 1 ∧ (g.release ip).ips = g.ips.erase ip) ∨
        (g.release ip).ips = g.ips.set ip { st with inflight := st.inflight - 1 }) := by
  simp only [release, h, if_pos hrun]
  split
  · rename_i hempty
    exact ⟨rfl, Or.inl ⟨by omega, rfl⟩⟩
  · exact ⟨rfl, Or.inr rfl⟩

end HandshakeGuard

end Memnode.RateLimit
