/-
Memnode.RateLimit.Accounting — the guard's counters and the size of its
table.

`Reachable L g held` is a run of the guard: `acquire` calls with any
clock, and a `release` for a slot that was granted and not released yet.
`held` lists the addresses of those slots. `Ledger` ties the guard to it:
what is running per address and in all is what is held, and the table has
grown by a new address only while it had room, or an idle address went,
or every address in it had a handshake running.
-/
import Memnode.RateLimit.Guard

set_option linter.unusedSectionVars false

namespace Memnode.RateLimit

open Lib

variable {α : Type} [LinearOrder α] {L : Limits}

/-- What a run of `acquire` and `release` calls leads to, with the
addresses of the slots that were granted and not released. -/
inductive Reachable (L : Limits) : HandshakeGuard α → List α → Prop where
  | init : Reachable L (.init α) []
  | granted {g g' : HandshakeGuard α} {held : List α} {now : Rat} {ip : α} :
      Reachable L g held → g.acquire L now ip = (g', .ok ()) → Reachable L g' (ip :: held)
  | refused {g g' : HandshakeGuard α} {held : List α} {now : Rat} {ip : α} {e : Rejected α} :
      Reachable L g held → g.acquire L now ip = (g', .error e) → Reachable L g' held
  | released {g : HandshakeGuard α} {held : List α} {ip : α} :
      Reachable L g held → ip ∈ held → Reachable L (g.release ip) (held.erase ip)

/-- The handshakes of an address that are running. -/
def running (ips : Dict α IpState) (ip : α) : Nat := ((ips.get ip).map IpState.inflight).getD 0

/-- The handshakes that are running in all. -/
def runningTotal (ips : Dict α IpState) : Nat := ips.sumBy (fun _ st => st.inflight)

/-! ## The table -/

theorem running_set (ips : Dict α IpState) (ip k : α) (st : IpState) :
    running (ips.set ip st) k = if k = ip then st.inflight else running ips k := by
  unfold running
  rw [Dict.get_set]
  split <;> rfl

theorem runningTotal_set (ips : Dict α IpState) (ip : α) (st : IpState) :
    runningTotal (ips.set ip st) + running ips ip = runningTotal ips + st.inflight := by
  unfold runningTotal running
  cases h : ips.get ip with
  | none =>
    rw [Dict.sumBy_set_of_none h]
    rfl
  | some st₀ => exact Dict.sumBy_set_of_some h st _

/-- Making room changes nothing about running handshakes. -/
theorem running_table (g : HandshakeGuard α) (now : Rat) (ip k : α) :
    running (g.table L now ip) k = running g.ips k := by
  obtain ⟨gone, heq, hidle, _⟩ := g.table_spec (L := L) now ip
  unfold running
  rw [heq, Dict.get_eraseAll]
  split
  · rename_i hgone
    cases hget : g.ips.get k with
    | none => rfl
    | some st => exact (hidle k hgone st hget).symm
  · rfl

theorem runningTotal_table (g : HandshakeGuard α) (now : Rat) (ip : α) :
    runningTotal (g.table L now ip) = runningTotal g.ips := by
  obtain ⟨gone, heq, hidle, _⟩ := g.table_spec (L := L) now ip
  unfold runningTotal
  rw [heq]
  refine Dict.sumBy_eraseAll fun e he hgone => ?_
  exact hidle e.1 hgone e.2 ((g.ips.get_eq_some_iff e.1 e.2).mpr he)

/-- The bound on the table survives an `acquire`. -/
theorem size_table_set {g : HandshakeGuard α} {bound : Int} (hsize : (g.ips.size : Int) ≤ bound)
    (htracked : L.maxTrackedIps ≤ bound) (htotal : (runningTotal g.ips : Int) + 1 ≤ bound)
    (now : Rat) (ip : α) (st : IpState) :
    (((g.table L now ip).set ip st).size : Int) ≤ bound := by
  obtain ⟨gone, heq, _, hsame, hroom⟩ := g.table_spec (L := L) now ip
  have hle : (g.table L now ip).size ≤ g.ips.size := by
    rw [heq]
    exact Dict.size_eraseAll_le _ _
  rw [Dict.size_set, hsame]
  cases hget : g.ips.get ip with
  | some st₀ =>
    simp only [reduceCtorEq, if_false]
    omega
  | none =>
    simp only [if_true]
    rcases hroom hget with hroom | hsmaller | hbusy
    · omega
    · omega
    · -- every entry stands for a running handshake
      have hentries : (g.table L now ip).size ≤ runningTotal (g.table L now ip) := by
        rw [Dict.size_eq_sumBy]
        refine Dict.sumBy_le_sumBy fun k v hkv => ?_
        exact hbusy (k, v) ((Dict.get_eq_some_iff _ k v).mp hkv)
      rw [runningTotal_table] at hentries
      omega

/-! ## The invariant -/

/-- The guard's books, for the slots that are held. -/
structure Ledger (L : Limits) (g : HandshakeGuard α) (held : List α) : Prop where
  count : ∀ ip, running g.ips ip = held.count ip
  sum : runningTotal g.ips = g.inflightTotal
  total : g.inflightTotal = held.length
  perIp : ∀ ip, (running g.ips ip : Int) ≤ L.maxInflightPerIp
  cap : (g.inflightTotal : Int) ≤ L.maxInflightTotal
  size : (g.ips.size : Int) ≤ max L.maxTrackedIps (L.maxInflightTotal + 1)

theorem ledger_init (h₁ : 0 ≤ L.maxInflightPerIp) (h₂ : 0 ≤ L.maxInflightTotal) :
    Ledger L (.init α) [] where
  count := fun _ => rfl
  sum := rfl
  total := rfl
  perIp := fun _ => h₁
  cap := h₂
  size := le_max_of_le_right (by simp [HandshakeGuard.init, Dict.empty, Dict.size]; omega)

variable {g g' : HandshakeGuard α} {held : List α} {now : Rat} {ip : α}

theorem Ledger.size_acquire (h : Ledger L g held) (now : Rat) (ip : α) (st : IpState) :
    (((g.table L now ip).set ip st).size : Int) ≤ max L.maxTrackedIps (L.maxInflightTotal + 1) := by
  refine size_table_set h.size (le_max_left _ _) ?_ now ip st
  rw [h.sum]
  exact le_max_of_le_right (Int.add_le_add_right h.cap 1)

/-- The running handshakes of the entry that `acquire` touches. -/
theorem inflight_touched (g : HandshakeGuard α) (now : Rat) (ip : α) :
    (touched L now ((g.ips.get ip).getD {})).inflight = running g.ips ip := by
  unfold running
  cases g.ips.get ip <;> rfl

theorem Ledger.granted (h : Ledger L g held) (hacq : g.acquire L now ip = (g', .ok ())) :
    Ledger L g' (ip :: held) := by
  obtain ⟨st, hst, ⟨e, herr, _⟩ | ⟨_, hcap, hper, _, hips, htotal⟩⟩ :=
    g.acquire_cases (L := L) now ip
  · rw [hacq] at herr
    cases herr
  rw [hacq] at hips htotal
  have hinflight : st.inflight = running g.ips ip := by rw [hst]; exact inflight_touched g now ip
  have hrun : ∀ k, running g'.ips k = if k = ip then running g.ips ip + 1 else running g.ips k := by
    intro k
    rw [hips, running_set, running_table, hinflight]
  have hsum := runningTotal_set (g.table L now ip) ip
    { st with attempts := st.attempts ++ [now], inflight := st.inflight + 1 }
  rw [running_table, runningTotal_table, ← hips, hinflight] at hsum
  refine ⟨fun k => ?_, ?_, ?_, fun k => ?_, ?_, ?_⟩
  · rw [hrun, List.count_cons, ← h.count k]
    by_cases hk : k = ip
    · subst hk
      simp
    · rw [if_neg hk, if_neg (by simpa using fun heq => hk heq.symm), Nat.add_zero]
  · have := h.sum
    simp only at htotal hsum
    omega
  · rw [List.length_cons, ← h.total]
    exact htotal
  · have := h.perIp k
    rw [hrun]
    split
    · push_cast
      omega
    · exact this
  · simp only at htotal
    rw [htotal]
    push_cast
    omega
  · rw [hips]
    exact h.size_acquire now ip _

theorem Ledger.refused {e : Rejected α} (h : Ledger L g held)
    (hacq : g.acquire L now ip = (g', .error e)) : Ledger L g' held := by
  obtain ⟨st, hst, ⟨_, _, hips, htotal⟩ | ⟨hok, _⟩⟩ := g.acquire_cases (L := L) now ip
  swap
  · rw [hacq] at hok
    cases hok
  rw [hacq] at hips htotal
  have hinflight : st.inflight = running g.ips ip := by rw [hst]; exact inflight_touched g now ip
  have hrun : ∀ k, running g'.ips k = running g.ips k := by
    intro k
    rw [hips, running_set, running_table, hinflight]
    split
    · rename_i hk
      rw [hk]
    · rfl
  have hsum := runningTotal_set (g.table L now ip) ip st
  rw [running_table, runningTotal_table, ← hips, hinflight] at hsum
  refine ⟨fun k => (hrun k).trans (h.count k), ?_, htotal.trans h.total, fun k => ?_, ?_, ?_⟩
  · have := h.sum
    simp only at htotal hsum
    omega
  · rw [hrun]
    exact h.perIp k
  · rw [htotal]
    exact h.cap
  · rw [hips]
    exact h.size_acquire now ip _

theorem Ledger.released (h : Ledger L g held) (hip : ip ∈ held) :
    Ledger L (g.release ip) (held.erase ip) := by
  have hpos : 0 < running g.ips ip := by
    rw [h.count]
    exact List.count_pos_iff.mpr hip
  obtain ⟨st, hget⟩ : ∃ st, g.ips.get ip = some st := by
    cases hget : g.ips.get ip with
    | none => simp [running, hget] at hpos
    | some st => exact ⟨st, rfl⟩
  have hst : running g.ips ip = st.inflight := by simp [running, hget]
  obtain ⟨htotal, hips⟩ := HandshakeGuard.release_spec hget (by omega)
  have hheld : 0 < held.length := List.length_pos_of_mem hip
  -- whether the entry stays or goes, one less is running
  have hrun : ∀ k, running (g.release ip).ips k
      = if k = ip then running g.ips ip - 1 else running g.ips k := by
    intro k
    rcases hips with ⟨hone, hips⟩ | hips
    · rw [hips, running, Dict.get_erase]
      by_cases hk : k = ip
      · simp [hk, hst, hone]
      · simp [hk, running]
    · rw [hips, running_set, hst]
  have hsum : runningTotal (g.release ip).ips + 1 = runningTotal g.ips := by
    rcases hips with ⟨hone, hips⟩ | hips
    · have herase := Dict.sumBy_erase hget (fun _ st => st.inflight)
      simp only [hone] at herase
      unfold runningTotal
      rw [hips]
      omega
    · have hset := runningTotal_set g.ips ip { st with inflight := st.inflight - 1 }
      rw [hips]
      simp only at hset
      omega
  have hsize : (g.release ip).ips.size ≤ g.ips.size := by
    rcases hips with ⟨_, hips⟩ | hips
    · rw [hips]
      exact List.length_filter_le _ _
    · rw [hips, Dict.size_set, hget]
      simp
  have := h.sum
  have := h.total
  refine ⟨fun k => ?_, by omega, ?_, fun k => ?_, ?_, ?_⟩
  · rw [hrun, List.count_erase, h.count, h.count]
    by_cases hk : k = ip
    · subst hk
      simp
    · rw [if_neg hk, if_neg (by simpa using fun heq => hk heq.symm), Nat.sub_zero]
  · rw [List.length_erase_of_mem hip, htotal, h.total]
  · have := h.perIp k
    rw [hrun]
    split
    · rename_i hk
      rw [hk] at this
      omega
    · exact this
  · have := h.cap
    rw [htotal]
    omega
  · have := h.size
    omega

theorem Reachable.ledger (h₁ : 0 ≤ L.maxInflightPerIp) (h₂ : 0 ≤ L.maxInflightTotal)
    (h : Reachable L g held) : Ledger L g held := by
  induction h with
  | init => exact ledger_init h₁ h₂
  | granted _ hacq ih => exact ih.granted hacq
  | refused _ hacq ih => exact ih.refused hacq
  | released _ hip ih => exact ih.released hip

/-- **The guard's accounting.** In every state that `acquire` calls with
any addresses, clock and limits lead to, each granted slot released at
most once: the total is the sum over the tracked addresses and the number
of slots held; no address and not the total exceed their limits; an
address that holds slots is tracked, with as many handshakes running; and
the table has at most `max_tracked_ips` addresses, or one more than may
be running in all. -/
theorem guard_accounts_for_slots (L : Limits) (hip : 0 ≤ L.maxInflightPerIp)
    (htotal : 0 ≤ L.maxInflightTotal) (g : HandshakeGuard α) (held : List α)
    (h : Reachable L g held) :
    g.inflightTotal = g.ips.sumBy (fun _ st => st.inflight) ∧
    g.inflightTotal = held.length ∧
    (∀ ip st, g.ips.get ip = some st → (st.inflight : Int) ≤ L.maxInflightPerIp) ∧
    (g.inflightTotal : Int) ≤ L.maxInflightTotal ∧
    (∀ ip ∈ held, ∃ st, g.ips.get ip = some st ∧ st.inflight = held.count ip) ∧
    (g.ips.size : Int) ≤ max L.maxTrackedIps (L.maxInflightTotal + 1) := by
  have hledger := h.ledger hip htotal
  refine ⟨hledger.sum.symm, hledger.total, fun ip st hget => ?_, hledger.cap, fun ip hheld => ?_,
    hledger.size⟩
  · have hper := hledger.perIp ip
    simpa [running, hget] using hper
  · have hcount := hledger.count ip
    have hpos := List.count_pos_iff.mpr hheld
    cases hget : g.ips.get ip with
    | none =>
      simp only [running, hget, Option.map_none, Option.getD_none] at hcount
      omega
    | some st =>
      simp only [running, hget, Option.map_some, Option.getD_some] at hcount
      exact ⟨st, rfl, hcount⟩

/-- One slot and one tracked address: the refused second address makes
the table as large as it can get. -/
theorem guard_accounts_for_slots_full :
    let L : Limits := ⟨20, 60, 1, 1, 1⟩
    let g := (HandshakeGuard.init Nat).acquire L 0 0
    let g' := g.1.acquire L 1 1
    g'.2 = .error (.total 1 1) ∧ g'.1.ips.size = 2 ∧ g'.1.inflightTotal = 1 := by
  intro L g g'
  have hgrant : (HandshakeGuard.init Nat).acquire L 0 0 = (g.1, .ok ()) :=
    Prod.ext rfl (by decide +kernel)
  have hrefuse : g'.2 = .error (.total 1 1) := by decide +kernel
  have hreach : Reachable L g'.1 [0] := .refused (.granted .init hgrant) (Prod.ext rfl hrefuse)
  have haccounts := guard_accounts_for_slots L (by decide) (by decide) g'.1 [0] hreach
  exact ⟨hrefuse, by decide +kernel, haccounts.2.1⟩

end Memnode.RateLimit
