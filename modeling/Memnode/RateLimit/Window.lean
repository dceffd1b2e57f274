/-
Memnode.RateLimit.Window — the guard's rate limit over a sliding window.

Any `acquire` and `release` calls, with a clock that does not go back.
The entry of an address lists its admitted attempts, less those that have
left the window: `Recorded` says so, relative to the times still to come.
As long as that holds, an attempt is admitted only if fewer than the
limit are inside the window that ends with it, and a window that holds
admitted attempts holds no more than the one ending at its last.

A pass over a full table drops idle addresses whatever their history.
`Remembers` excludes the cases where an attempt still inside the window
is forgotten so, and no other path forgets one.
-/
import Mathlib.Data.List.TakeWhile
import Memnode.RateLimit.Guard

set_option linter.unusedSectionVars false

namespace Memnode.RateLimit

open Lib

variable {α : Type} [LinearOrder α] (L : Limits)

/-- A call, with the clock where it is read. -/
inductive Action (α : Type) where
  | acquire (now : Rat) (ip : α)
  | release (ip : α)
  deriving DecidableEq, Repr

/-- The clock reading a call makes. -/
def Action.time : Action α → Option Rat
  | .acquire now _ => some now
  | .release _ => none

/-- The clock readings of a run. -/
def clock (acts : List (Action α)) : List Rat := acts.filterMap Action.time

/-- The time and address of an attempt, if it was admitted. -/
def grants (now : Rat) (ip : α) : Except (Rejected α) Unit → List (Rat × α)
  | .ok _ => [(now, ip)]
  | .error _ => []

/-- One call: the guard after it, and what it admitted. -/
def step (g : HandshakeGuard α) : Action α → HandshakeGuard α × List (Rat × α)
  | .acquire now ip => ((g.acquire L now ip).1, grants now ip (g.acquire L now ip).2)
  | .release ip => (g.release ip, [])

/-- The admitted attempts of a run, in order. -/
def admitted (g : HandshakeGuard α) : List (Action α) → List (Rat × α)
  | [] => []
  | a :: rest => (step L g a).2 ++ admitted (step L g a).1 rest

/-- The admitted attempts of one address. -/
def timesOf (ip : α) (xs : List (Rat × α)) : List Rat := (xs.filter (fun x => x.2 = ip)).map Prod.fst

/-- The times in `[t, t + window_seconds]`. -/
def inWindow (t : Rat) (times : List Rat) : List Rat :=
  times.filter (fun s => t ≤ s ∧ s ≤ t + L.windowSeconds)

/-- An `acquire` of another address makes room by dropping `ip`, whose
entry has an attempt that is still inside the window. -/
def Forgets (g : HandshakeGuard α) (ip : α) : Action α → Prop
  | .acquire now ip' => (g.table L now ip').get ip = none ∧
      ∃ st, g.ips.get ip = some st ∧ ∃ a ∈ st.attempts, now - L.windowSeconds ≤ a
  | .release _ => False

/-- No call of the run forgets an attempt of `ip` that still counts. -/
def Remembers (ip : α) (g : HandshakeGuard α) : List (Action α) → Prop
  | [] => True
  | a :: rest => ¬ Forgets L g ip a ∧ Remembers ip (step L g a).1 rest

variable {L}

/-! ## What the entry of an address lists -/

/-- The attempts the guard remembers of an address. -/
def attemptsOf (ips : Dict α IpState) (ip : α) : List Rat :=
  ((ips.get ip).map IpState.attempts).getD []

/-- The admitted times `S` of `ip` are what the guard remembers, behind
some that are outside every window still to come. -/
structure Recorded (L : Limits) (ip : α) (future : List Rat) (g : HandshakeGuard α)
    (S : List Rat) : Prop where
  split : ∃ P, S = P ++ attemptsOf g.ips ip ∧ ∀ p ∈ P, ∀ now ∈ future, p < now - L.windowSeconds
  past : ∀ s ∈ S, ∀ now ∈ future, s ≤ now

theorem attemptsOf_set (ips : Dict α IpState) (ip k : α) (st : IpState) :
    attemptsOf (ips.set ip st) k = if k = ip then st.attempts else attemptsOf ips k := by
  unfold attemptsOf
  rw [Dict.get_set]
  split <;> rfl

/-- A `release` changes no history. -/
theorem attemptsOf_release (g : HandshakeGuard α) (ip k : α) :
    attemptsOf (g.release ip).ips k = attemptsOf g.ips k := by
  cases hget : g.ips.get ip with
  | none => simp only [HandshakeGuard.release, hget]
  | some st =>
    have hst : attemptsOf g.ips ip = st.attempts := by simp [attemptsOf, hget]
    have hstay : ∀ st' : IpState, st'.attempts = st.attempts →
        attemptsOf (g.ips.set ip st') k = attemptsOf g.ips k := by
      intro st' hsame
      rw [attemptsOf_set]
      split
      · rename_i hk
        rw [hk, hst, hsame]
      · rfl
    have hgo : st.attempts = [] → attemptsOf (g.ips.erase ip) k = attemptsOf g.ips k := by
      intro hnil
      unfold attemptsOf
      rw [Dict.get_erase]
      split
      · rename_i hk
        rw [hk, hget]
        exact hnil.symm
      · rfl
    simp only [HandshakeGuard.release, hget]
    by_cases hrun : st.inflight > 0
    · simp only [if_pos hrun]
      split
      · rename_i hempty
        exact hgo hempty.2
      · exact hstay _ rfl
    · simp only [if_neg hrun]
      split
      · rename_i hempty
        exact hgo hempty.2
      · exact hstay _ rfl

/-- Making room for another address leaves the history of `ip`, or drops it. -/
theorem attemptsOf_table {g : HandshakeGuard α} {ip ip' : α} {now : Rat}
    (h : ¬ Forgets L g ip (.acquire now ip')) :
    attemptsOf (g.table L now ip') ip = attemptsOf g.ips ip ∨
      (attemptsOf (g.table L now ip') ip = [] ∧
        ∀ a ∈ attemptsOf g.ips ip, a < now - L.windowSeconds) := by
  obtain ⟨gone, heq, _⟩ := g.table_spec (L := L) now ip'
  have hget : (g.table L now ip').get ip = if ip ∈ gone then none else g.ips.get ip := by
    rw [heq, Dict.get_eraseAll]
  by_cases hgone : ip ∈ gone
  · rw [if_pos hgone] at hget
    refine Or.inr ⟨by simp [attemptsOf, hget], fun a ha => ?_⟩
    cases hst : g.ips.get ip with
    | none => simp [attemptsOf, hst] at ha
    | some st =>
      simp only [attemptsOf, hst, Option.map_some, Option.getD_some] at ha
      by_contra hin
      exact h ⟨hget, st, hst, a, ha, le_of_not_gt hin⟩
  · rw [if_neg hgone] at hget
    exact Or.inl (by simp [attemptsOf, hget])

/-! ## One call -/

variable {ip : α} {g : HandshakeGuard α} {S : List Rat} {rest : List (Action α)}

/-- What an `acquire` at `now` drops from the front has left the window,
and with it every later one. -/
theorem Recorded.drop {now : Rat} {future gone kept : List Rat}
    (h : Recorded L ip (now :: future) g S) (hlater : ∀ t ∈ future, now ≤ t)
    (hsplit : attemptsOf g.ips ip = gone ++ kept) (hgone : ∀ a ∈ gone, a < now - L.windowSeconds) :
    ∃ P, S = P ++ kept ∧ ∀ p ∈ P, ∀ t ∈ now :: future, p < t - L.windowSeconds := by
  obtain ⟨P, hS, hP⟩ := h.split
  refine ⟨P ++ gone, by rw [hS, hsplit, List.append_assoc], fun p hp t ht => ?_⟩
  rcases List.mem_append.mp hp with hp | hp
  · exact hP p hp t ht
  · have hnow : now ≤ t := by
      rcases List.mem_cons.mp ht with rfl | ht
      · exact le_refl _
      · exact hlater t ht
    exact lt_of_lt_of_le (hgone p hp) (sub_le_sub_right hnow _)

/-- Nothing is admitted: the record is behind by what was dropped. -/
theorem Recorded.behind {now : Rat} {future gone kept : List Rat} {g' : HandshakeGuard α}
    (h : Recorded L ip (now :: future) g S) (hlater : ∀ t ∈ future, now ≤ t)
    (hsplit : attemptsOf g.ips ip = gone ++ kept) (hgone : ∀ a ∈ gone, a < now - L.windowSeconds)
    (hkept : attemptsOf g'.ips ip = kept) : Recorded L ip future g' S := by
  obtain ⟨P, hS, hP⟩ := h.drop hlater hsplit hgone
  exact ⟨⟨P, by rw [hkept]; exact hS, fun p hp t ht => hP p hp t (List.mem_cons_of_mem _ ht)⟩,
    fun s hs t ht => h.past s hs t (List.mem_cons_of_mem _ ht)⟩

/-- An `acquire` of another address. -/
theorem Recorded.acquire_other {now : Rat} {ip' : α} {future : List Rat}
    (h : Recorded L ip (now :: future) g S) (hlater : ∀ t ∈ future, now ≤ t)
    (hrem : ¬ Forgets L g ip (.acquire now ip')) (hne : ip ≠ ip') :
    Recorded L ip future (g.acquire L now ip').1 S := by
  have hips : attemptsOf (g.acquire L now ip').1.ips ip = attemptsOf (g.table L now ip') ip := by
    obtain ⟨st, _, ⟨_, _, hips, _⟩ | ⟨_, _, _, _, hips, _⟩⟩ := g.acquire_cases (L := L) now ip'
    · rw [hips, attemptsOf_set, if_neg hne]
    · rw [hips, attemptsOf_set, if_neg hne]
  rcases attemptsOf_table hrem with hsame | ⟨hnil, hleft⟩
  · exact h.behind hlater (List.nil_append _).symm (by simp) (hips.trans hsame)
  · exact h.behind hlater (List.append_nil _).symm hleft (hips.trans hnil)

/-- An `acquire` of the address: refused, or admitted while fewer than
the limit are inside the window. -/
theorem Recorded.acquire_self {now : Rat} {future : List Rat}
    (h : Recorded L ip (now :: future) g S) (hlater : ∀ t ∈ future, now ≤ t) :
    ((∃ e, (g.acquire L now ip).2 = .error e) ∧ Recorded L ip future (g.acquire L now ip).1 S) ∨
      ((g.acquire L now ip).2 = .ok () ∧ Recorded L ip future (g.acquire L now ip).1 (S ++ [now]) ∧
        ∃ P kept, S = P ++ kept ∧ (∀ p ∈ P, p < now - L.windowSeconds) ∧
          (kept.length : Int) < L.maxPerIpPerWindow) := by
  obtain ⟨st, hst, hend⟩ := g.acquire_cases (L := L) now ip
  have hattempts : st.attempts
      = (attemptsOf g.ips ip).dropWhile (fun a => a < now - L.windowSeconds) := by
    rw [hst]
    unfold attemptsOf
    cases g.ips.get ip <;> rfl
  have hsplit : attemptsOf g.ips ip
      = (attemptsOf g.ips ip).takeWhile (fun a => a < now - L.windowSeconds) ++ st.attempts := by
    rw [hattempts, List.takeWhile_append_dropWhile]
  have hleft : ∀ a ∈ (attemptsOf g.ips ip).takeWhile (fun a => a < now - L.windowSeconds),
      a < now - L.windowSeconds := by
    intro a ha
    simpa using List.mem_takeWhile_imp ha
  rcases hend with ⟨e, herr, hips, _⟩ | ⟨hok, _, _, hrate, hips, _⟩
  · refine Or.inl ⟨⟨e, herr⟩, h.behind hlater hsplit hleft ?_⟩
    rw [hips, attemptsOf_set, if_pos rfl]
  · obtain ⟨P, hS, hP⟩ := h.drop hlater hsplit hleft
    refine Or.inr ⟨hok, ⟨⟨P, ?_, fun p hp t ht => hP p hp t (List.mem_cons_of_mem _ ht)⟩, ?_⟩, P,
      st.attempts, hS, fun p hp => hP p hp now List.mem_cons_self, hrate⟩
    · rw [hips, attemptsOf_set, if_pos rfl, hS, List.append_assoc]
    · intro s hs t ht
      rcases List.mem_append.mp hs with hs | hs
      · exact h.past s hs t (List.mem_cons_of_mem _ ht)
      · rw [List.mem_singleton.mp hs]
        exact hlater t ht

/-! ## Runs -/

/-- One more admitted attempt: a window that holds it holds only attempts
the guard still counted. -/
theorem inWindow_append {now : Rat} {P kept : List Rat} {limit : Int}
    (hP : ∀ p ∈ P, p < now - L.windowSeconds) (hkept : (kept.length : Int) < limit) (t : Rat)
    (h : (inWindow L t (P ++ kept)).length ≤ limit.toNat) :
    (inWindow L t (P ++ kept ++ [now])).length ≤ limit.toNat := by
  by_cases hnow : t ≤ now ∧ now ≤ t + L.windowSeconds
  · have hnone : inWindow L t P = [] := by
      rw [inWindow, List.filter_eq_nil_iff]
      intro p hp hin
      rw [decide_eq_true_eq] at hin
      have hleft := hP p hp
      have hlow : now - L.windowSeconds ≤ t := sub_le_iff_le_add.mpr hnow.2
      exact absurd (lt_of_lt_of_le hleft hlow) (not_lt_of_ge hin.1)
    have hle : (inWindow L t kept).length ≤ kept.length := List.length_filter_le _ _
    have hsplit : inWindow L t (P ++ kept ++ [now])
        = inWindow L t P ++ inWindow L t kept ++ inWindow L t [now] := by
      simp only [inWindow, List.filter_append]
    have hone : (inWindow L t [now]).length ≤ 1 := List.length_filter_le _ _
    rw [hsplit, hnone, List.nil_append, List.length_append]
    omega
  · have hskip : inWindow L t (P ++ kept ++ [now]) = inWindow L t (P ++ kept) := by
      rw [inWindow, List.filter_append, List.filter_cons_of_neg (by simpa using hnow), List.filter_nil,
        List.append_nil]
      rfl
    rw [hskip]
    exact h

/-- One call keeps the record and the bound. -/
theorem Recorded.step {a : Action α} (h : Recorded L ip (clock (a :: rest)) g S)
    (hclock : (clock (a :: rest)).Pairwise (· ≤ ·)) (hrem : ¬ Forgets L g ip a)
    (hbound : ∀ t, (inWindow L t S).length ≤ L.maxPerIpPerWindow.toNat) :
    Recorded L ip (clock rest) (step L g a).1 (S ++ timesOf ip (step L g a).2) ∧
      ∀ t, (inWindow L t (S ++ timesOf ip (step L g a).2)).length ≤ L.maxPerIpPerWindow.toNat := by
  cases a with
  | release ip' =>
    have hnone : S ++ timesOf ip (RateLimit.step L g (.release ip')).2 = S := List.append_nil S
    rw [hnone]
    refine ⟨⟨?_, h.past⟩, hbound⟩
    rw [show (RateLimit.step L g (.release ip')).1 = g.release ip' from rfl, attemptsOf_release]
    exact h.split
  | acquire now ip' =>
    have hlater : ∀ t ∈ clock rest, now ≤ t := (List.pairwise_cons.mp hclock).1
    have hrec : Recorded L ip (now :: clock rest) g S := h
    have hstep : RateLimit.step L g (.acquire now ip')
        = ((g.acquire L now ip').1, grants now ip' (g.acquire L now ip').2) := rfl
    rw [hstep]
    by_cases hip : ip = ip'
    · subst hip
      rcases hrec.acquire_self hlater with ⟨⟨e, herr⟩, hnext⟩ | ⟨hok, hnext, P, kept, hS, hP, hrate⟩
      · rw [herr]
        have hnone : S ++ timesOf ip (grants now ip (.error e)) = S := List.append_nil S
        exact ⟨by rw [hnone]; exact hnext, fun t => by rw [hnone]; exact hbound t⟩
      · rw [hok]
        have hone : timesOf ip (grants now ip (.ok ())) = [now] := by simp [timesOf, grants]
        refine ⟨by rw [hone]; exact hnext, fun t => ?_⟩
        rw [hone, hS]
        exact inWindow_append hP hrate t (by rw [← hS]; exact hbound t)
    · have hnone : ∀ r, timesOf ip (grants now ip' r) = [] := by
        intro r
        cases r with
        | ok _ => simp [timesOf, grants, Ne.symm hip]
        | error _ => rfl
      rw [hnone, List.append_nil]
      exact ⟨hrec.acquire_other hlater hrem hip, hbound⟩

/-- The bound over a whole run, from any recorded state. -/
theorem Recorded.run {acts : List (Action α)} (h : Recorded L ip (clock acts) g S)
    (hclock : (clock acts).Pairwise (· ≤ ·)) (hrem : Remembers L ip g acts)
    (hbound : ∀ t, (inWindow L t S).length ≤ L.maxPerIpPerWindow.toNat) (t : Rat) :
    (inWindow L t (S ++ timesOf ip (admitted L g acts))).length ≤ L.maxPerIpPerWindow.toNat := by
  induction acts generalizing g S with
  | nil => simpa [admitted, timesOf] using hbound t
  | cons a rest ih =>
    obtain ⟨hnext, hbound'⟩ := h.step hclock hrem.1 hbound
    have hclock' : (clock rest).Pairwise (· ≤ ·) := by
      cases a with
      | release _ => exact hclock
      | acquire _ _ => exact (List.pairwise_cons.mp hclock).2
    have hrest := ih hnext hclock' hrem.2 hbound'
    have htimes : timesOf ip (admitted L g (a :: rest))
        = timesOf ip (RateLimit.step L g a).2 ++ timesOf ip (admitted L (RateLimit.step L g a).1 rest) := by
      simp only [timesOf, admitted, List.filter_append, List.map_append]
    rw [htimes, ← List.append_assoc]
    exact hrest

/-- **The rate limit, where nothing is forgotten.** Over any calls with a
clock that does not go back and any limits: if no call drops the entry of
an address that has an attempt inside the window, then of that address at
most `max_per_ip_per_window` attempts are admitted in any stretch of
`window_seconds`. -/
theorem rate_bounded_while_remembered (L : Limits) (ip : α) (acts : List (Action α))
    (hclock : (clock acts).Pairwise (· ≤ ·)) (hrem : Remembers L ip (.init α) acts) (t : Rat) :
    (inWindow L t (timesOf ip (admitted L (.init α) acts))).length ≤ L.maxPerIpPerWindow.toNat := by
  have hinit : Recorded L ip (clock acts) (.init α) [] :=
    ⟨⟨[], rfl, by simp⟩, by simp⟩
  exact hinit.run hclock hrem (fun t => Nat.zero_le _) t

/-- One attempt per minute: the second is refused, the one after a minute is not. -/
theorem rate_bounded_while_remembered_minute :
    let L : Limits := ⟨1, 60, 4, 8, 8⟩
    let acts : List (Action Nat) := [.acquire 0 5, .release 5, .acquire 1 5, .acquire 61 5]
    timesOf 5 (admitted L (.init Nat) acts) = [0, 61] ∧
      (inWindow L 0 (timesOf 5 (admitted L (.init Nat) acts))).length ≤ 1 := by
  intro L acts
  have hrem : Remembers L 5 (.init Nat) acts :=
    And.intro (fun ⟨_, _, hst, _⟩ => nomatch hst)
      (And.intro not_false
        (And.intro (fun h => absurd h.1 (by decide +kernel))
          (And.intro (fun h => absurd h.1 (by decide +kernel)) trivial)))
  exact ⟨by decide +kernel,
    rate_bounded_while_remembered L 5 acts (by decide +kernel) hrem 0⟩

/-- A table for one address: another address pushes the first one out,
and its second attempt within two seconds is admitted, against a limit of
one per minute. -/
theorem evicted_address_admitted_again :
    let L : Limits := ⟨1, 60, 4, 8, 1⟩
    let acts : List (Action Nat) := [.acquire 0 5, .release 5, .acquire 1 6, .acquire 2 5]
    (clock acts).Pairwise (· ≤ ·) ∧ admitted L (.init Nat) acts = [(0, 5), (1, 6), (2, 5)] ∧
      (inWindow L 0 (timesOf 5 (admitted L (.init Nat) acts))).length = 2 := by
  decide +kernel

end Memnode.RateLimit
